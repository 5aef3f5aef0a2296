import Sogx.Ios.NALUnit
import Sogx.Lib.Records

/-!
`NALUnit.cpp`: the `avcCHeader` that finds the parameter sets in a decoder
configuration record.

* `sps_inside`: the sequence parameter set lies in the buffer.
* `ofRecord_spec`: of a well-formed record the first sets are found.
* `rangesRight_iff`: the ranges lie in the buffer if and only if the length of the
  picture parameter set, which is not checked, is not too large.
-/

namespace Sogx

open Sogx.Lib Sogx.Lib.Records

/-- The bytes that a `NALUnit` denotes, by their place in the buffer. -/
structure UnitRange where
  m_pStart : Nat
  m_cBytes : Nat
deriving DecidableEq, Repr

namespace UnitRange

def data (buffer : List Byte) (r : UnitRange) : List Byte :=
  (buffer.drop r.m_pStart).take r.m_cBytes

def Inside (buffer : List Byte) (r : UnitRange) : Prop := r.m_pStart + r.m_cBytes ≤ buffer.length

instance (buffer : List Byte) (r : UnitRange) : Decidable (r.Inside buffer) :=
  inferInstanceAs (Decidable (r.m_pStart + r.m_cBytes ≤ buffer.length))

end UnitRange

/-- The two parameter sets; one that is unset is a `NALUnit()`. -/
structure AvcCHeader where
  m_sps : Option UnitRange
  m_pps : Option UnitRange
deriving DecidableEq, Repr

namespace AvcCHeader

/-- `(header[0] << 8) + header[1]`. -/
def short (buffer : List Byte) (header : Nat) : Nat :=
  ((buffer.getD header 0).toNat <<< 8) + (buffer.getD (header + 1) 0).toNat

/-- The loop over the sequence parameter sets, with the place behind them; `none`
stands for leaving the constructor. -/
def spsLoop (buffer : List Byte) (pEnd : Int) :
    Nat → Nat → Nat → Option UnitRange → Option UnitRange × Option Nat
  | 0, _, header, m_sps => (m_sps, some header)
  | n + 1, i, header, m_sps =>
    if pEnd < header + 2 then (m_sps, none)
    else
      let cThis := short buffer header
      let header := header + 2
      if pEnd < header + cThis then (m_sps, none)
      else
        spsLoop buffer pEnd n (i + 1) (header + cThis)
          (if i = 0 then some ⟨header, cThis⟩ else m_sps)

/-- What comes behind the sequence parameter sets. -/
def ppsAt (buffer : List Byte) (pEnd : Int) (header : Nat) : Option UnitRange :=
  if pEnd ≤ header + 3 then none
  else if 0 < (buffer.getD header 0).toNat then some ⟨header + 3, short buffer (header + 1)⟩
  else none

/-- `cSeq`. -/
def seqCount (buffer : List Byte) : Nat := (buffer.getD 5 0 &&& 0x1f).toNat

/-- The constructor, over the bytes of an `NSData`, whose length becomes an `int`. -/
def ofData (buffer : List Byte) : AvcCHeader :=
  let cBytes := int buffer.length
  if cBytes < 8 then ⟨none, none⟩
  else
    let (m_sps, header) := spsLoop buffer cBytes (seqCount buffer) 0 6 none
    ⟨m_sps, header.bind (ppsAt buffer cBytes)⟩

/-! ### The ranges -/

/-- From `pos` on there are so many sets in front of `pEnd`, and `pos'` is behind
them. -/
inductive Sets (buffer : List Byte) (pEnd : Int) : Nat → Nat → Nat → Prop where
  | zero {pos : Nat} : Sets buffer pEnd 0 pos pos
  | succ {n pos pos' : Nat} : (pos + 2 + short buffer pos : Nat) ≤ pEnd →
      Sets buffer pEnd n (pos + 2 + short buffer pos) pos' → Sets buffer pEnd (n + 1) pos pos'

variable {buffer : List Byte} {pEnd : Int}

/-- A turn of the loop leaves the constructor unless the set lies in front of `pEnd`. -/
theorem spsLoop_succ (n i header : Nat) (m_sps : Option UnitRange) :
    spsLoop buffer pEnd (n + 1) i header m_sps =
      if pEnd < (header + 2 + short buffer header : Nat) then (m_sps, none)
      else spsLoop buffer pEnd n (i + 1) (header + 2 + short buffer header)
        (if i = 0 then some ⟨header + 2, short buffer header⟩ else m_sps) := by
  rw [spsLoop]
  by_cases hfield : pEnd < header + 2
  · rw [if_pos hfield, if_pos (by omega)]
  · rw [if_neg hfield]
    rfl

/-- The loop over the sets stands behind them where they are inside the buffer. -/
theorem spsLoop_place (n i header pos : Nat) (m_sps : Option UnitRange) :
    (spsLoop buffer pEnd n i header m_sps).2 = some pos ↔ Sets buffer pEnd n header pos := by
  induction n generalizing i header m_sps with
  | zero =>
    constructor
    · intro h
      rw [← Option.some.inj h]
      exact .zero
    · rintro ⟨⟩
      rfl
  | succ n ih =>
    rw [spsLoop_succ]
    by_cases hset : pEnd < (header + 2 + short buffer header : Nat)
    · rw [if_pos hset]
      constructor
      · intro h
        cases h
      · rintro (_ | ⟨hfits, -⟩)
        exact absurd hset (not_lt.mpr hfits)
    · rw [if_neg hset, ih]
      constructor
      · exact .succ (not_lt.mp hset)
      · rintro (_ | ⟨-, hrest⟩)
        exact hrest

/-- Only the first set is kept. -/
theorem spsLoop_later (n : Nat) {i : Nat} (hi : 0 < i) (header : Nat) (m_sps : Option UnitRange) :
    (spsLoop buffer pEnd n i header m_sps).1 = m_sps := by
  induction n generalizing i header with
  | zero => rfl
  | succ n ih =>
    rw [spsLoop_succ, if_neg hi.ne']
    split_ifs
    · rfl
    · exact ih (Nat.succ_pos i) _

theorem spsLoop_first (n header : Nat) :
    (spsLoop buffer pEnd (n + 1) 0 header none).1 =
      if pEnd < (header + 2 + short buffer header : Nat) then none
      else some ⟨header + 2, short buffer header⟩ := by
  rw [spsLoop_succ, if_pos rfl]
  split_ifs
  · rfl
  · exact spsLoop_later n Nat.one_pos _ _

theorem spsLoop_inside {n header : Nat} {r : UnitRange}
    (h : (spsLoop buffer pEnd n 0 header none).1 = some r) : (r.m_pStart + r.m_cBytes : Nat) ≤ pEnd := by
  cases n with
  | zero => cases h
  | succ n =>
    rw [spsLoop_first] at h
    split_ifs at h with hset
    cases h
    exact not_lt.mp hset

/-! ### The constructor -/

/-- The loop comes to an end, in front of the count of the picture parameter sets. -/
def Reaches (buffer : List Byte) (pos : Nat) : Prop :=
  8 ≤ int buffer.length ∧ Sets buffer (int buffer.length) (seqCount buffer) 6 pos

/-- The sequence set is what the loop finds in a buffer that has a record. -/
theorem ofData_sps (buffer : List Byte) :
    (ofData buffer).m_sps =
      if int buffer.length < 8 then none
      else (spsLoop buffer (int buffer.length) (seqCount buffer) 0 6 none).1 := by
  unfold ofData
  dsimp only
  split_ifs
  · rfl
  · rfl

/-- The picture set is what stands behind the place that is reached. -/
theorem ofData_pps (buffer : List Byte) (r : UnitRange) :
    (ofData buffer).m_pps = some r ↔
      ∃ pos, Reaches buffer pos ∧ ppsAt buffer (int buffer.length) pos = some r := by
  unfold Reaches ofData
  dsimp only
  split_ifs with hshort
  · constructor
    · intro h
      cases h
    · rintro ⟨pos, ⟨hlong, -⟩, -⟩
      exact absurd hlong (not_le.mpr hshort)
  · rw [Option.bind_eq_some_iff]
    refine exists_congr fun pos => and_congr_left fun _ => ?_
    rw [spsLoop_place, and_iff_right (not_lt.mp hshort)]

/-- Whatever the buffer holds, the sequence parameter set lies in it. -/
theorem sps_inside {r : UnitRange} (h : (ofData buffer).m_sps = some r) : r.Inside buffer := by
  rw [ofData_sps] at h
  split_ifs at h
  have hinside := spsLoop_inside h
  have hint := int_natCast_le buffer.length
  unfold UnitRange.Inside
  omega

/-- A picture set is taken where there is a count that is not 0 and a length. -/
theorem ppsAt_eq_some {pos : Nat} {r : UnitRange} :
    ppsAt buffer pEnd pos = some r ↔
      (pos + 3 : Nat) < pEnd ∧ 0 < (buffer.getD pos 0).toNat ∧
        r = ⟨pos + 3, short buffer (pos + 1)⟩ := by
  unfold ppsAt
  split_ifs with hend hcount
  · constructor
    · intro h
      cases h
    · rintro ⟨hroom, -⟩
      omega
  · rw [Option.some.injEq, and_iff_right (by omega), and_iff_right hcount]
    exact eq_comm
  · constructor
    · intro h
      cases h
    · rintro ⟨-, hpos, -⟩
      exact absurd hpos hcount

/-! ### Well-formed records -/

/-- A decoder configuration record. `front` are the five bytes in front of the
count, and `rest` what may follow the picture parameter sets. -/
structure Record where
  front : List Byte
  sps : List (List Byte)
  pps : List (List Byte)
  rest : List Byte
  length_front : front.length = 5
  sps_count : sps.length < 32
  pps_count : pps.length < 256
  sps_length : ∀ s ∈ sps, s.length < 256 ^ 2
  pps_length : ∀ p ∈ pps, p.length < 256 ^ 2
  length : front.length + 2 + (encode 2 sps).length + (encode 2 pps).length + rest.length < 2 ^ 31

namespace Record

/-- The three bits in front of the first count are ones. -/
def bytes (r : Record) : List Byte :=
  r.front ++ ((0xE0#8 + BitVec.ofNat 8 r.sps.length) :: (encode 2 r.sps ++
    (BitVec.ofNat 8 r.pps.length :: (encode 2 r.pps ++ r.rest))))

/-- There is something to find: a set of either kind that is not empty. -/
structure Used (r : Record) : Prop where
  sps : ∃ s ∈ r.sps, s ≠ []
  pps : ∃ p ∈ r.pps, p ≠ []

end Record

/-- A set is found at the place of a range. -/
def Denotes (buffer : List Byte) (found : Option UnitRange) (set : Option (List Byte)) : Prop :=
  (∀ r, found = some r → r.Inside buffer) ∧ found.map (UnitRange.data buffer) = set

theorem seqCount_byte {n : Nat} (h : n < 32) : ((0xE0#8 + BitVec.ofNat 8 n) &&& 0x1f).toNat = n := by
  interval_cases n <;> rfl

theorem getD_standsAt {b : Byte} {rest : List Byte} {pos : Nat} (h : StandsAt (b :: rest) pos buffer) :
    buffer.getD pos 0 = b := by
  obtain ⟨tail, htail⟩ := h
  have hget : (buffer.drop pos).getD 0 0 = b := by
    rw [← htail]
    rfl
  rwa [List.getD_eq_getElem?_getD, List.getElem?_drop, Nat.add_zero,
    ← List.getD_eq_getElem?_getD] at hget

theorem short_standsAt {n pos : Nat} (hn : n < 256 ^ 2) (h : StandsAt (toBE 2 n) pos buffer) :
    short buffer pos = n := by
  have hparts : StandsAt ([BitVec.ofNat 8 (n / 256)] ++ [BitVec.ofNat 8 n]) pos buffer := by
    simpa [toBE] using h
  obtain ⟨hhigh, hlow⟩ := standsAt_append.mp hparts
  have hsecond : buffer.getD (pos + 1) 0 = BitVec.ofNat 8 n := getD_standsAt hlow
  rw [short, getD_standsAt hhigh, hsecond, Nat.shiftLeft_eq]
  simp only [BitVec.toNat_ofNat]
  omega

/-- Sets that were written are passed one by one, by induction on them. -/
theorem sets_encode {sets : List (List Byte)} (hlength : ∀ s ∈ sets, s.length < 256 ^ 2) {pos : Nat}
    (hstands : StandsAt (encode 2 sets) pos buffer)
    (hend : (pos + (encode 2 sets).length : Nat) ≤ pEnd) :
    Sets buffer pEnd sets.length pos (pos + (encode 2 sets).length) := by
  induction sets generalizing pos with
  | nil => exact .zero
  | cons set sets ih =>
    obtain ⟨hset, hsets⟩ := List.forall_mem_cons.mp hlength
    rw [encode_cons, standsAt_append, frame, standsAt_append] at hstands
    obtain ⟨⟨hfield, -⟩, hrest⟩ := hstands
    have hshort := short_standsAt hset hfield
    rw [encode_cons, List.length_append, length_frame] at hend ⊢
    rw [List.length_append, length_toBE] at hrest
    have hnext := ih hsets hrest (by omega)
    refine .succ (by omega) ?_
    rw [hshort]
    have hsame : pos + 2 + set.length = pos + (2 + set.length) := Nat.add_assoc _ _ _
    rw [hsame, ← Nat.add_assoc pos (2 + set.length)]
    exact hnext

theorem Sets.unique {n pos a b : Nat} (ha : Sets buffer pEnd n pos a) (hb : Sets buffer pEnd n pos b) :
    a = b := by
  have hfirst := (spsLoop_place n 0 pos a none).mpr ha
  have hsecond := (spsLoop_place n 0 pos b none).mpr hb
  exact Option.some.inj (hfirst.symm.trans hsecond)

/-- A set at the front of some, with its length. -/
theorem standsAt_first {sets : List (List Byte)} {set : List Byte} {pos : Nat}
    (hlength : ∀ s ∈ set :: sets, s.length < 256 ^ 2)
    (h : StandsAt (encode 2 (set :: sets)) pos buffer) :
    short buffer pos = set.length ∧ UnitRange.data buffer ⟨pos + 2, set.length⟩ = set := by
  rw [encode_cons, standsAt_append, frame, standsAt_append] at h
  obtain ⟨⟨hfield, hset⟩, -⟩ := h
  rw [length_toBE] at hset
  exact ⟨short_standsAt (hlength set List.mem_cons_self) hfield, hset.take⟩

theorem length_encode_pos {sets : List (List Byte)} (h : ∃ s ∈ sets, s ≠ []) :
    2 < (encode 2 sets).length := by
  obtain ⟨s, hmem, hne⟩ := h
  obtain ⟨before, behind, rfl⟩ := List.append_of_mem hmem
  have hpos := List.length_pos_iff.mpr hne
  rw [encode_append, encode_cons, List.length_append, List.length_append, length_frame]
  omega

section OfRecord

variable (r : Record)

theorem length_bytes : r.bytes.length =
    r.front.length + 2 + (encode 2 r.sps).length + (encode 2 r.pps).length + r.rest.length := by
  unfold Record.bytes
  simp only [List.length_append, List.length_cons]
  omega

/-- A record is short enough for an `int`. -/
theorem int_bytes : int r.bytes.length = r.bytes.length := by
  refine int_of_lt ?_
  rw [length_bytes]
  exact r.length

theorem seqCount_bytes : seqCount r.bytes = r.sps.length := by
  have hcount : r.bytes.getD 5 0 = 0xE0#8 + BitVec.ofNat 8 r.sps.length := by
    have hstands := standsAt_middle r.front [0xE0#8 + BitVec.ofNat 8 r.sps.length]
      (encode 2 r.sps ++ (BitVec.ofNat 8 r.pps.length :: (encode 2 r.pps ++ r.rest)))
    rw [r.length_front] at hstands
    exact getD_standsAt hstands
  rw [seqCount, hcount, seqCount_byte r.sps_count]

/-- Where the parts of a record stand. -/
theorem standsAt_parts :
    StandsAt (encode 2 r.sps) 6 r.bytes ∧
      StandsAt [BitVec.ofNat 8 r.pps.length] (6 + (encode 2 r.sps).length) r.bytes ∧
      StandsAt (encode 2 r.pps) (6 + (encode 2 r.sps).length + 1) r.bytes := by
  have hall : StandsAt (encode 2 r.sps ++ ([BitVec.ofNat 8 r.pps.length] ++
      (encode 2 r.pps ++ r.rest))) 6 r.bytes := by
    have hfront : r.bytes = (r.front ++ [0xE0#8 + BitVec.ofNat 8 r.sps.length]) ++
        ((encode 2 r.sps ++ ([BitVec.ofNat 8 r.pps.length] ++ (encode 2 r.pps ++ r.rest))) ++ []) := by
      simp [Record.bytes]
    have hsix : (r.front ++ [0xE0#8 + BitVec.ofNat 8 r.sps.length]).length = 6 := by
      rw [List.length_append, r.length_front]
      rfl
    rw [hfront, ← hsix]
    exact standsAt_middle _ _ []
  rw [standsAt_append, standsAt_append, standsAt_append] at hall
  exact ⟨hall.1, hall.2.1, hall.2.2.1⟩

/-- In a record the place of the picture sets is reached. -/
theorem reaches_bytes (h : r.Used) : Reaches r.bytes (6 + (encode 2 r.sps).length) := by
  have hsps := length_encode_pos h.sps
  have hlength := length_bytes r
  have hfront := r.length_front
  rw [Reaches, int_bytes, seqCount_bytes]
  refine ⟨by omega, ?_⟩
  exact sets_encode r.sps_length (standsAt_parts r).1 (by omega)

/-- Of a record that has any, the first sets are found. -/
theorem ofRecord_spec (h : r.Used) :
    Denotes r.bytes (ofData r.bytes).m_sps r.sps.head? ∧
      Denotes r.bytes (ofData r.bytes).m_pps r.pps.head? := by
  obtain ⟨hfirst, hcount, hsecond⟩ := standsAt_parts r
  have hlength := length_bytes r
  have hfront := r.length_front
  have hreaches := reaches_bytes r h
  constructor
  · refine ⟨fun _ => sps_inside, ?_⟩
    cases hsps : r.sps with
    | nil =>
      obtain ⟨s, hmem, -⟩ := h.sps
      rw [hsps] at hmem
      cases hmem
    | cons s sets =>
      have hsets := r.sps_length
      rw [hsps] at hfirst hlength hsets
      obtain ⟨hshort, hdata⟩ := standsAt_first hsets hfirst
      rw [encode_cons, List.length_append, length_frame] at hlength
      rw [ofData_sps, int_bytes, seqCount_bytes, hsps, List.length_cons, spsLoop_first, hshort,
        if_neg (by omega), if_neg (by omega), Option.map_some, hdata]
      rfl
  · cases hpps : r.pps with
    | nil =>
      obtain ⟨p, hmem, -⟩ := h.pps
      rw [hpps] at hmem
      cases hmem
    | cons p sets =>
      have hsets := r.pps_length
      have hpos := length_encode_pos h.pps
      have hbyte : (r.bytes.getD (6 + (encode 2 r.sps).length) 0).toNat = r.pps.length := by
        rw [getD_standsAt hcount]
        exact Nat.mod_eq_of_lt r.pps_count
      rw [hpps] at hsecond hlength hsets hpos hbyte
      obtain ⟨hshort, hdata⟩ := standsAt_first hsets hsecond
      have hfound : (ofData r.bytes).m_pps =
          some ⟨6 + (encode 2 r.sps).length + 3, p.length⟩ := by
        rw [ofData_pps]
        refine ⟨_, hreaches, ppsAt_eq_some.mpr ⟨?_, ?_, ?_⟩⟩
        · rw [int_bytes]
          omega
        · rw [hbyte]
          exact Nat.succ_pos _
        · rw [hshort]
      rw [Denotes, hfound, Option.map_some]
      refine ⟨?_, congrArg some hdata⟩
      intro found hsame
      cases hsame
      rw [encode_cons, List.length_append, length_frame] at hlength
      unfold UnitRange.Inside
      dsimp only
      omega

end OfRecord

/-! ### Every buffer -/

/-- Where the constructor gets to a picture parameter set, its length field does
not say more than the buffer holds. -/
def PpsFits (buffer : List Byte) : Prop :=
  ∀ pos, Reaches buffer pos → (pos + 3 : Nat) < int buffer.length →
    0 < (buffer.getD pos 0).toNat → pos + 3 + short buffer (pos + 1) ≤ buffer.length

/-- The ranges lie in the buffer, and are the first sets of a well-formed record. -/
structure RangesRight (buffer : List Byte) : Prop where
  sps : ∀ r, (ofData buffer).m_sps = some r → r.Inside buffer
  pps : ∀ r, (ofData buffer).m_pps = some r → r.Inside buffer
  record : ∀ r : Record, r.bytes = buffer → r.Used →
    (ofData buffer).m_sps.map (UnitRange.data buffer) = r.sps.head? ∧
      (ofData buffer).m_pps.map (UnitRange.data buffer) = r.pps.head?

/-- The ranges are right if and only if the length of a picture set that is reached says no
more than the buffer holds. -/
theorem rangesRight_iff (buffer : List Byte) : RangesRight buffer ↔ PpsFits buffer := by
  constructor
  · intro h pos hreaches hroom hcount
    exact h.pps _ ((ofData_pps buffer _).mpr
      ⟨pos, hreaches, ppsAt_eq_some.mpr ⟨hroom, hcount, rfl⟩⟩)
  · intro h
    refine ⟨fun _ => sps_inside, ?_, ?_⟩
    · intro r hpps
      obtain ⟨pos, hreaches, hat⟩ := (ofData_pps buffer r).mp hpps
      obtain ⟨hroom, hcount, rfl⟩ := ppsAt_eq_some.mp hat
      exact h pos hreaches hroom hcount
    · rintro r rfl hused
      obtain ⟨hsps, hpps⟩ := ofRecord_spec r hused
      exact ⟨hsps.2, hpps.2⟩

/-- A picture parameter set that says it has 65535 bytes, of which one is there. -/
def overlong : List Byte := [1, 0x42, 0, 0x1e, 0xff, 0xe1, 0, 1, 0x67, 1, 0xff, 0xff, 0x68]

/-- A length that is too large leads outside of the buffer. -/
theorem overlong_reads_outside :
    (ofData overlong).m_pps = some ⟨12, 65535⟩ ∧ ¬ RangesRight overlong := by
  have hpps : (ofData overlong).m_pps = some ⟨12, 65535⟩ := by decide
  refine ⟨hpps, ?_⟩
  intro h
  have hinside := h.pps _ hpps
  exact absurd hinside (by decide)

end AvcCHeader

end Sogx
