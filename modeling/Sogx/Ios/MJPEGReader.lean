import Sogx.Jvm.Utils

/-!
`MJPEGReader.m`: the chunk reader of the iOS application, and how it compares
with the Scala reader of `Utils` on the same file.

* `recording_plays_back`: a recorded file gives back its chunks on both
  platforms, and both loops stop.
* `readers_agree_iff`: on an arbitrary file the two readers deliver the same
  chunks, each an exact record of the file, exactly when the file does not
  break off inside a record (`Unbroken`).

A record that the file does not hold is where they part (`readChunks_cut` on
either side): the Scala reader fills the chunk up with zeros, or throws on a
negative size, or stops; the iOS reader hands out whatever is left.
-/

namespace Sogx.MJPEGReader

open Sogx.Lib Sogx.Lib.Records

/-- `-[NSFileHandle readDataOfLength:]` on a regular file: at most the rest of
it, and what is left behind. -/
def readDataOfLength (length : Nat) (file : List Byte) : List Byte × List Byte :=
  (file.take length, file.drop length)

/-- `decodeInt32:`; short data decodes to 0. -/
def decodeInt32 (data : List Byte) : BitVec 32 :=
  if data.length < 4 then 0
  else
    let b0 := ((data.getD 0 0).setWidth 32 &&& 0x000000ff#32) <<< 24
    let b1 := ((data.getD 1 0).setWidth 32 &&& 0x000000ff#32) <<< 16
    let b2 := ((data.getD 2 0).setWidth 32 &&& 0x000000ff#32) <<< 8
    let b3 := (data.getD 3 0).setWidth 32 &&& 0x000000ff#32
    b0 + b1 + b2 + b3

theorem decodeInt32_of_lt {data : List Byte} (h : data.length < 4) : decodeInt32 data = 0 :=
  if_pos h

/-- `readChunks:fps:`, as the list of the chunks the block is called with. The
`int` size becomes an `NSUInteger` for `readDataOfLength:`, a negative one with
its sign extended. The pause after each chunk does not depend on the file. -/
def readChunks (file : List Byte) : List (List Byte) :=
  let data := (readDataOfLength 4 file).1
  let size := decodeInt32 data
  if _h : size = 0 then []
  else
    let chunk := readDataOfLength (size.signExtend 64).toNat (readDataOfLength 4 file).2
    chunk.1 :: readChunks chunk.2
termination_by file.length
decreasing_by
  have hlen : ¬ (file.take 4).length < 4 := fun hlt => _h (decodeInt32_of_lt hlt)
  simp only [readDataOfLength, List.length_drop, List.length_take] at hlen ⊢
  omega

theorem decodeInt32_of_le {file : List Byte} (h : 4 ≤ file.length) :
    decodeInt32 (file.take 4) = BitVec.ofNat 32 (header 4 file) := by
  obtain ⟨b0, b1, b2, b3, rest, rfl⟩ :
      ∃ b0 b1 b2 b3 rest, file = b0 :: b1 :: b2 :: b3 :: rest := by
    match file, h with
    | b0 :: b1 :: b2 :: b3 :: rest, _ => exact ⟨b0, b1, b2, b3, rest, rfl⟩
  simp [decodeInt32, mask_byte, header, ← word_of_bytes]

/-! ### The iOS reader on a record stream -/

theorem readChunks_ends {file : List Byte} (h : Ends 4 file) : readChunks file = [] := by
  have hsize : decodeInt32 (file.take 4) = 0 := by
    rcases Nat.lt_or_ge file.length 4 with hshort | hlong
    · exact decodeInt32_of_lt (by simp; omega)
    · have hzero : header 4 file = 0 := by
        rcases h with hlt | hz
        · omega
        · exact hz
      rw [decodeInt32_of_le hlong, hzero]
      rfl
  rw [readChunks]
  simp only [readDataOfLength, hsize, dite_true]

/-- One turn of the loop behind a length field that is not zero. The number of
bytes asked for is never below the announced one. -/
theorem readChunks_of_pos {file : List Byte} (h : 4 ≤ file.length) (hpos : 0 < header 4 file) :
    ∃ size, header 4 file ≤ size ∧ (header 4 file < 2 ^ 31 → size = header 4 file) ∧
      readChunks file = (file.drop 4).take size :: readChunks ((file.drop 4).drop size) := by
  have hlt : header 4 file < 2 ^ 32 := header_four_lt h
  have hsize : decodeInt32 (file.take 4) = BitVec.ofNat 32 (header 4 file) := decodeInt32_of_le h
  have hne : BitVec.ofNat 32 (header 4 file) ≠ 0 := by
    intro hz
    have hnat := congrArg BitVec.toNat hz
    rw [BitVec.toNat_ofNat, Nat.mod_eq_of_lt hlt] at hnat
    simp at hnat
    omega
  have hnat : (BitVec.ofNat 32 (header 4 file)).toNat = header 4 file := by
    rw [BitVec.toNat_ofNat, Nat.mod_eq_of_lt hlt]
  refine ⟨((BitVec.ofNat 32 (header 4 file)).signExtend 64).toNat, ?_, ?_, ?_⟩
  · rw [BitVec.toNat_signExtend, BitVec.toNat_setWidth, hnat, Nat.mod_eq_of_lt (by omega)]
    exact Nat.le_add_right _ _
  · intro hsmall
    have hmsb : (BitVec.ofNat 32 (header 4 file)).msb = false := by
      rw [BitVec.msb_eq_decide, hnat, decide_eq_false_iff_not]
      omega
    rw [BitVec.signExtend_eq_setWidth_of_msb_false hmsb, BitVec.toNat_setWidth, hnat,
      Nat.mod_eq_of_lt (by omega)]
  · conv_lhs => rw [readChunks]
    simp only [readDataOfLength, hsize, hne, dite_false]

/-- A chunk with its length in front is read, and the rest after it. -/
theorem readChunks_frame {c : List Byte} (hne : c ≠ []) (hlen : c.length < 2 ^ 31)
    (rest : List Byte) : readChunks (frame 4 c ++ rest) = c :: readChunks rest := by
  have hpos := List.length_pos_iff.mpr hne
  have hheader : header 4 (frame 4 c ++ rest) = c.length := header_frame (by omega) rest
  have hdrop : (frame 4 c ++ rest).drop 4 = c ++ rest := by simp [frame]
  have hle : 4 ≤ (frame 4 c ++ rest).length := by
    simp only [List.length_append, length_frame]
    omega
  obtain ⟨size, -, hsize, hread⟩ := readChunks_of_pos hle (by omega)
  rw [hread, hsize (by omega), hheader, hdrop]
  simp

/-- In front of a record that the file breaks off in, the rest of the file is
handed out, even when nothing is left of it. -/
theorem readChunks_cut {file : List Byte} (h : 4 ≤ file.length) (hpos : 0 < header 4 file)
    (hcut : file.length < 4 + header 4 file) : readChunks file = [file.drop 4] := by
  obtain ⟨size, hsize, -, hread⟩ := readChunks_of_pos h hpos
  have htake : (file.drop 4).take size = file.drop 4 :=
    List.take_of_length_le (by simp only [List.length_drop]; omega)
  have hnil : (file.drop 4).drop size = [] :=
    List.drop_eq_nil_of_le (by simp only [List.length_drop]; omega)
  rw [hread, htake, hnil, readChunks_ends (.inl (by simp))]

/-- All chunks of a file are read, by induction on them. -/
theorem readChunks_encode {cs : List (List Byte)} (hall : ∀ c ∈ cs, c ≠ [] ∧ c.length < 2 ^ 31)
    (rest : List Byte) : readChunks (encode 4 cs ++ rest) = cs ++ readChunks rest := by
  induction cs with
  | nil => rfl
  | cons c cs ih =>
    obtain ⟨hne, hlen⟩ := hall c (by simp)
    have hcs := ih fun c' hc' => hall c' (List.mem_cons_of_mem _ hc')
    rw [encode_cons, List.append_assoc, readChunks_frame hne hlen, hcs, List.cons_append]

/-! ### The two readers on one file -/

open Utils (recording reader.readChunks Outcome)

/-- A recorded file plays back exactly, on both platforms, and both loops stop
behind the last chunk. -/
theorem recording_plays_back (chunks : List (List Byte))
    (hall : ∀ c ∈ chunks, c ≠ [] ∧ c.length < 2 ^ 31) (fps : Int) (hfps : 1 ≤ fps) :
    reader.readChunks fps (recording chunks) = (chunks, .returned) ∧
      readChunks (recording chunks) = chunks := by
  have hfile : recording chunks = encode 4 chunks ++ [] := by
    rw [Utils.recording_eq_encode fun c hc => (hall c hc).2, List.append_nil]
  have hends : Ends 4 ([] : List Byte) := .inl (by simp)
  constructor
  · rw [hfile, Utils.readChunks_encode hfps hall, Utils.readChunks_nil hfps, List.append_nil]
  · rw [hfile, readChunks_encode hall, readChunks_ends hends, List.append_nil]

theorem recording_plays_back_two_chunks :
    (∀ c ∈ [[0xff#8, 0xd8#8], [0xff#8]], c ≠ [] ∧ c.length < 2 ^ 31) ∧ (1 : Int) ≤ 25 ∧
      reader.readChunks 25 (recording [[0xff, 0xd8], [0xff]]) = ([[0xff, 0xd8], [0xff]], .returned) ∧
      readChunks (recording [[0xff, 0xd8], [0xff]]) = [[0xff, 0xd8], [0xff]] :=
  ⟨by decide, by decide, recording_plays_back [[0xff, 0xd8], [0xff]] (by decide) 25 (by decide)⟩

/-- `chunks` are records of the file: the pieces behind the first length fields
of the file, one after the other, each of exactly the announced length. -/
def Recorded (file : List Byte) (chunks : List (List Byte)) : Prop :=
  (∀ c ∈ chunks, c.length < 256 ^ 4) ∧ encode 4 chunks <+: file

/-- The file is a row of whole, non-empty records that the readers' `int` can
measure, up to an incomplete or zero length field. -/
def Unbroken (file : List Byte) : Prop :=
  ∃ records rest, (∀ r ∈ records, r ≠ [] ∧ r.length < 2 ^ 31) ∧
    file = encode 4 records ++ rest ∧ Ends 4 rest

/-- On a file that is not broken both readers give its records. -/
theorem readers_of_unbroken {file : List Byte} (h : Unbroken file) {fps : Int} (hfps : 1 ≤ fps) :
    ∃ records, Recorded file records ∧ (reader.readChunks fps file).1 = records ∧
      readChunks file = records := by
  obtain ⟨records, rest, hall, rfl, hends⟩ := h
  refine ⟨records, ⟨fun c hc => ?_, List.prefix_append _ _⟩, ?_, ?_⟩
  · have := (hall c hc).2
    omega
  · rw [Utils.readChunks_encode hfps hall, Utils.readChunks_ends hfps hends, List.append_nil]
  · rw [readChunks_encode hall, readChunks_ends hends, List.append_nil]

/-- In front of a record the file does not hold, the readers part. -/
theorem readers_differ_of_cut {rest : List Byte} (h : Cut 4 (2 ^ 31) rest) {fps : Int}
    (hfps : 1 ≤ fps) : (reader.readChunks fps rest).1 ≠ readChunks rest := by
  obtain ⟨hlen, hpos, hbig⟩ := h
  rcases Utils.readChunks_cut hfps ⟨hlen, hpos, hbig⟩ with hnone | ⟨hlt, zeros, hzeros, hpadded⟩
  · obtain ⟨size, -, -, hread⟩ := readChunks_of_pos hlen hpos
    rw [hnone, hread]
    simp
  · have hcut : rest.length < 4 + header 4 rest := by omega
    rw [hpadded, readChunks_cut hlen hpos hcut]
    simpa using hzeros

/-- The readers deliver the same chunks, each an exact record of the file, if
and only if the file does not break off inside a record. -/
theorem readers_agree_iff (file : List Byte) (fps : Int) (hfps : 1 ≤ fps) :
    ((reader.readChunks fps file).1 = readChunks file ∧
      Recorded file (reader.readChunks fps file).1 ∧ Recorded file (readChunks file)) ↔
      Unbroken file := by
  constructor
  · rintro ⟨hagree, -, -⟩
    obtain ⟨records, rest, hall, hfile, hends | hcut⟩ :=
      ends_or_cut (w := 4) (2 ^ 31) file
    · exact ⟨records, rest, hall, hfile, hends⟩
    · rw [hfile, Utils.readChunks_encode hfps hall, readChunks_encode hall] at hagree
      exact absurd (List.append_cancel_left hagree) (readers_differ_of_cut hcut hfps)
  · intro h
    obtain ⟨records, hrecorded, hscala, hios⟩ := readers_of_unbroken h hfps
    rw [hscala, hios]
    exact ⟨rfl, hrecorded, hrecorded⟩

/-- A length that is cut off at the end is passed over by both. -/
theorem readers_agree_on_partial_field :
    (1 : Int) ≤ 10 ∧ Unbroken [0, 0, 0, 1, 0xff, 0] ∧
      ((reader.readChunks 10 [0, 0, 0, 1, 0xff, 0]).1 = readChunks [0, 0, 0, 1, 0xff, 0] ∧
        Recorded [0, 0, 0, 1, 0xff, 0] (reader.readChunks 10 [0, 0, 0, 1, 0xff, 0]).1 ∧
        Recorded [0, 0, 0, 1, 0xff, 0] (readChunks [0, 0, 0, 1, 0xff, 0])) := by
  have hunbroken : Unbroken [0, 0, 0, 1, 0xff, 0] :=
    ⟨[[0xff]], [0], by decide, by decide, .inl (by decide)⟩
  exact ⟨by decide, hunbroken, (readers_agree_iff _ 10 (by decide)).mpr hunbroken⟩

/-- A file cut off inside its only record: one reader invents a byte, the other
hands out the cut chunk. -/
theorem truncated_record_is_delivered :
    (reader.readChunks 10 [0, 0, 0, 2, 0xff]).1 = [[0xff, 0]] ∧
      readChunks [0, 0, 0, 2, 0xff] = [[0xff]] ∧
      ¬ Recorded [0, 0, 0, 2, 0xff] [[0xff, 0]] ∧ ¬ Recorded [0, 0, 0, 2, 0xff] [[0xff]] := by
  refine ⟨?_, readChunks_cut (by decide) (by decide) (by decide), ?_, ?_⟩
  · have hread : Utils.InputStream.read
        (List.replicate (header 4 [0, 0, 0, 2, 0xff]) 0) [0xff] = (1, [0xff, 0], []) := by decide
    rw [Utils.readChunks_of_lt (by decide) (by decide) (by decide)]
    simp only [List.drop_succ_cons, List.drop_zero, hread]
    rw [if_pos (by decide), Utils.readChunks_nil (by decide)]
  · exact fun h => absurd h.2 (by decide)
  · exact fun h => absurd h.2 (by decide)

end Sogx.MJPEGReader
