import Sogx.Ios.AvcCHeader
import Sogx.Ios.RTSPMessage
import Sogx.Lib.Base64

/-!
`RTSPClientConnection.mm`: how a description carries the parameter sets.

`makeSDP` takes the two sets of the configuration record, writes each in Base64,
and joins them with a comma to the value of `sprop-parameter-sets`.

* `encodeToBase64_eq`: the loop and its two tails write the Base64 of the bytes.
* `spropParameterSets_inj`: two different pairs of sets have different values.
* `published_of_record`: what a well-formed record comes to.
-/

namespace Sogx.ParameterSets

open Sogx.Lib Sogx.Lib.Records

def Base64Mapping : NSString :=
  "ABCDEFGHIJKLMNOPQRSTUVWXYZabcdefghijklmnopqrstuvwxyz0123456789+/".toList

/-- `encodeLong`. Every `val` is below 2^24, so that no shift of it leaves an `int`.
Behind the last character of the mapping stands its NUL. -/
def encodeLong (val nPad : Nat) : NSString :=
  let cch := 4 - nPad
  (List.range cch).map (fun i =>
    let shift := 6 * (cch - (i + 1))
    let bits := (val >>> shift) &&& 0x3f
    Base64Mapping.getD bits '\x00') ++ List.replicate nPad '='

def byteAt (p : List Byte) (i : Nat) : Nat := (p.getD i 0).toNat

/-- The loop over three bytes at a time: the place in the bytes, how many are left,
and the string so far. -/
def triples (p : List Byte) (cBytes : Int) (s : NSString) : List Byte × Int × NSString :=
  if 3 ≤ cBytes then
    let val := (byteAt p 0 <<< 16) + (byteAt p 1 <<< 8) + byteAt p 2
    triples (p.drop 3) (cBytes - 3) (s ++ encodeLong val 0)
  else (p, cBytes, s)
termination_by cBytes.toNat

/-- `encodeToBase64`. The length of the data becomes an `int`. -/
def encodeToBase64 (data : List Byte) : NSString :=
  let (p, cBytes, s) := triples data (int data.length) []
  if 0 < cBytes then
    if cBytes = 1 then s ++ encodeLong (byteAt p 0 <<< 4) 2
    else s ++ encodeLong (((byteAt p 0 <<< 8) + byteAt p 1) <<< 2) 1
  else s

/-- `%@,%@` of the two sets. -/
def spropParameterSets (sps pps : List Byte) : NSString :=
  encodeToBase64 sps ++ ',' :: encodeToBase64 pps

/-- The data of a set; a set that was not found has no bytes. -/
def setData (config : List Byte) (set : Option UnitRange) : List Byte :=
  (set.map (UnitRange.data config)).getD []

/-- The value that `makeSDP` publishes for a configuration. -/
def published (config : List Byte) : NSString :=
  let avcC := AvcCHeader.ofData config
  spropParameterSets (setData config avcC.m_sps) (setData config avcC.m_pps)

/-! ### The code writes Base64 -/

/-- The table is the alphabet of the code, and the lowest 6 bits choose in it. -/
theorem mapping_bits (n : Nat) : Base64Mapping.getD (n &&& 0x3f) '\x00' = Base64.digit (n % 64) := by
  have hlt : n % 64 < Base64.alphabet.length := Nat.mod_lt n (by decide)
  have hmask : n &&& 0x3f = n % 64 := Nat.and_two_pow_sub_one_eq_mod n 6
  rw [hmask, Base64.digit, List.getD_eq_getElem _ _ hlt]
  exact List.getD_eq_getElem _ _ hlt

/-- A group is its digits with pads for those that are left out. -/
theorem encodeLong_eq (val nPad : Nat) :
    encodeLong val nPad = Base64.digits (4 - nPad) val ++ List.replicate nPad Base64.pad := by
  have hdigits : ∀ cch, (List.range cch).map (fun i =>
      Base64Mapping.getD ((val >>> (6 * (cch - (i + 1)))) &&& 0x3f) '\x00') =
        Base64.digits cch val := by
    intro cch
    induction cch with
    | zero => rfl
    | succ cch ih =>
      have hshift : val >>> (6 * cch) = val / 64 ^ cch := by
        rw [Nat.shiftRight_eq_div_pow, pow_mul]
        rfl
      rw [List.range_succ_eq_map, List.map_cons, List.map_map, Base64.digits, ← ih, mapping_bits]
      simp only [Nat.zero_add, Nat.add_sub_cancel, hshift]
      congr 1
      apply List.map_congr_left
      intro i _
      rw [Function.comp_apply, Nat.succ_eq_add_one, Nat.add_sub_add_right]
  rw [encodeLong, hdigits]
  rfl

theorem ofBE_one (a : Byte) : ofBE [a] = byteAt [a] 0 := by
  simp [ofBE, byteAt]

theorem ofBE_two (a b : Byte) : ofBE [a, b] = (byteAt [a, b] 0 <<< 8) + byteAt [a, b] 1 := by
  simp [ofBE, byteAt, Nat.shiftLeft_eq]

theorem ofBE_three (a b c : Byte) (rest : List Byte) :
    ofBE [a, b, c] = (byteAt (a :: b :: c :: rest) 0 <<< 16) + (byteAt (a :: b :: c :: rest) 1 <<< 8) +
      byteAt (a :: b :: c :: rest) 2 := by
  simp only [ofBE, byteAt, Nat.shiftLeft_eq, List.getD_cons_zero, List.getD_cons_succ,
    List.length_cons, List.length_nil]
  omega

theorem triples_short {p : List Byte} (h : p.length < 3) (s : NSString) :
    triples p p.length s = (p, (p.length : Int), s) := by
  rw [triples, if_neg (by omega)]

/-- The loop leaves less than three bytes, and has written those before them. -/
theorem triples_spec (p : List Byte) (s : NSString) :
    ∃ rest out, triples p p.length s = (rest, (rest.length : Int), out) ∧ rest.length < 3 ∧
      out ++ Base64.encode rest = s ++ Base64.encode p := by
  fun_induction Base64.encode p generalizing s with
  | case1 =>
    have hlength : ([] : List Byte).length < 3 := by simp
    exact ⟨[], s, triples_short hlength s, hlength, rfl⟩
  | case2 a =>
    have hlength : [a].length < 3 := by simp
    exact ⟨[a], s, triples_short hlength s, hlength, rfl⟩
  | case3 a b =>
    have hlength : [a, b].length < 3 := by simp
    exact ⟨[a, b], s, triples_short hlength s, hlength, rfl⟩
  | case4 a b c tail ih =>
    obtain ⟨rest, out, hrun, hlength, hout⟩ := ih (s ++ Base64.digits 4 (ofBE [a, b, c]))
    refine ⟨rest, out, ?_, hlength, ?_⟩
    · have hfull : (3 : Int) ≤ ((a :: b :: c :: tail).length : Nat) := by
        simp only [List.length_cons]
        omega
      have hleft : (((a :: b :: c :: tail).length : Nat) : Int) - 3 = (tail.length : Nat) := by
        simp only [List.length_cons]
        omega
      rw [triples, if_pos hfull]
      simp only [← ofBE_three, encodeLong_eq, hleft, List.drop_succ_cons, List.drop_zero,
        List.replicate_zero, List.append_nil, Nat.sub_zero]
      exact hrun
    · rw [hout, List.append_assoc]

/-- The encoder of the server is that of the RFC, for what an `int` can count. -/
theorem encodeToBase64_eq {data : List Byte} (h : data.length < 2 ^ 31) :
    encodeToBase64 data = Base64.encode data := by
  obtain ⟨rest, out, hrun, hlength, hout⟩ := triples_spec data []
  rw [encodeToBase64, int_of_lt h, hrun, ← List.nil_append (Base64.encode data), ← hout]
  match rest, hlength with
  | [], _ => exact (List.append_nil out).symm
  | [a], _ =>
    have hval : byteAt [a] 0 <<< 4 = ofBE [a] * 2 ^ 4 := by rw [ofBE_one, Nat.shiftLeft_eq]
    simp only [hval, encodeLong_eq]
    rfl
  | [a, b], _ =>
    have hval : ((byteAt [a, b] 0 <<< 8) + byteAt [a, b] 1) <<< 2 = ofBE [a, b] * 2 ^ 2 := by
      rw [ofBE_two, Nat.shiftLeft_eq _ 2]
    simp only [hval, encodeLong_eq]
    rfl

/-! ### What is published -/

theorem units_encode (bs : List Byte) : ∀ c ∈ Base64.encode bs, NSString.units c = 1 := by
  intro c hc
  have hall : Base64.alphabet.all (fun c => NSString.units c == 1) = true := by decide +kernel
  rcases Base64.mem_encode hc with hc | rfl
  · exact eq_of_beq (List.all_eq_true.mp hall c hc)
  · rfl

/-- The comma between two codes is in none of them. -/
theorem comma_notMem_encode (bs : List Byte) : ',' ∉ Base64.encode bs := by
  intro hc
  have hall : ',' ∉ Base64.alphabet := by decide
  rcases Base64.mem_encode hc with hc | hc
  · exact hall hc
  · exact absurd hc (by decide)

/-- The comma is in neither set, so the two come apart again. -/
theorem spropParameterSets_inj {sps pps sps' pps' : List Byte} (hs : sps.length < 2 ^ 31)
    (hp : pps.length < 2 ^ 31) (hs' : sps'.length < 2 ^ 31) (hp' : pps'.length < 2 ^ 31)
    (h : spropParameterSets sps pps = spropParameterSets sps' pps') : sps = sps' ∧ pps = pps' := by
  rw [spropParameterSets, spropParameterSets, encodeToBase64_eq hs, encodeToBase64_eq hp,
    encodeToBase64_eq hs', encodeToBase64_eq hp',
    List.append_cons_inj_of_notMem (comma_notMem_encode sps) (comma_notMem_encode pps)] at h
  exact ⟨Base64.encode_injective h.1, Base64.encode_injective h.2.2⟩

/-- Of a record the first sets are published. -/
theorem published_of_record (r : AvcCHeader.Record) (h : r.Used) :
    published r.bytes = Base64.encode (r.sps.head?.getD []) ++ ',' ::
      Base64.encode (r.pps.head?.getD []) := by
  obtain ⟨⟨-, hsps⟩, ⟨-, hpps⟩⟩ := AvcCHeader.ofRecord_spec (r := r) h
  have hshort : ∀ sets : List (List Byte), (∀ s ∈ sets, s.length < 256 ^ 2) →
      (sets.head?.getD []).length < 2 ^ 31 := by
    intro sets hsets
    cases sets with
    | nil => exact Nat.two_pow_pos 31
    | cons s sets => exact Nat.lt_trans (hsets s (by simp)) (by decide)
  rw [published, setData, setData, hsps, hpps, spropParameterSets,
    encodeToBase64_eq (hshort _ r.sps_length), encodeToBase64_eq (hshort _ r.pps_length)]

/-- The code has the length and the letters of RFC 4648 and is decoded as the data, and the
descriptions of different sets differ. -/
theorem encodeToBase64_correct (data : List Byte) (h : data.length < 2 ^ 31) :
    NSString.length (encodeToBase64 data) = 4 * ((data.length + 2) / 3) ∧
      (∃ body k, encodeToBase64 data = body ++ List.replicate k '=' ∧ k ≤ 2 ∧
        ∀ c ∈ body, c ∈ Base64.alphabet) ∧
      Base64.decode (encodeToBase64 data) = some data ∧
      ∀ pps sps' pps', pps.length < 2 ^ 31 → sps'.length < 2 ^ 31 → pps'.length < 2 ^ 31 →
        spropParameterSets data pps = spropParameterSets sps' pps' → data = sps' ∧ pps = pps' := by
  refine ⟨?_, ?_, ?_, ?_⟩
  · rw [encodeToBase64_eq h, NSString.length_eq_of_units (units_encode data), Base64.length_encode]
  · rw [encodeToBase64_eq h]
    exact Base64.encode_padded data
  · rw [encodeToBase64_eq h, Base64.decode_encode]
  · intro pps sps' pps' hp hs' hp' heq
    exact spropParameterSets_inj h hp hs' hp' heq

theorem encodeToBase64_correct_of_two :
    NSString.length (encodeToBase64 [0xff, 0xfe]) = 4 ∧
      Base64.decode (encodeToBase64 [0xff, 0xfe]) = some [0xff, 0xfe] := by
  obtain ⟨hlength, -, hdecode, -⟩ := encodeToBase64_correct [0xff, 0xfe] (by decide)
  exact ⟨hlength, hdecode⟩

end Sogx.ParameterSets
