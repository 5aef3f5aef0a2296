import Sogx.Lib.Records

/-!
`Utils.scala`: the chunk files of the command line and of the demo endpoints.

`writer.write` appends a chunk behind its length; `reader.readChunks` reads the
chunks back and hands each to a callback. A file is the list of its bytes, a
stream the list of the bytes not yet read, and `readChunks` returns the chunks
it called back with, in order, and how the call ended.

* `recording_eq_encode`: the file that `write` builds is the stream of records
  `Lib.Records.encode 4`.
* `readChunks_frame`, `readChunks_ends`, `readChunks_cut`: the reader in front
  of a whole record, an end mark, and a record the file does not hold.
* `readChunks_paced_iff`: the frame rate changes nothing but the pause if and only if
  the pause can be computed.
-/

namespace Sogx.Utils

open Sogx.Lib Sogx.Lib.Records

/-- What the reading code can throw into `eatMyShorts`. -/
inductive Throwable where
  | arithmeticException | illegalArgumentException | negativeArraySizeException
deriving DecidableEq, Repr

/-- A call inside `eatMyShorts` returns, or its `Throwable` is printed and
dropped. -/
inductive Outcome where
  | returned
  | eaten (x : Throwable)
deriving DecidableEq, Repr

namespace InputStream

/-- `InputStream.read(buffer)` on a regular file: the count (-1 at the end of
the stream, 0 into an empty buffer), the buffer and the rest of the stream. The
part of the buffer behind the count keeps what it held. -/
def read (buffer is : List Byte) : Int × List Byte × List Byte :=
  if buffer = [] then (0, buffer, is)
  else if is = [] then (-1, buffer, is)
  else
    let got := is.take buffer.length
    (got.length, got ++ buffer.drop got.length, is.drop buffer.length)

theorem read_of_ne_nil {buffer is : List Byte} (hb : buffer ≠ []) (his : is ≠ []) :
    read buffer is =
      (((is.take buffer.length).length : Int),
        is.take buffer.length ++ buffer.drop (is.take buffer.length).length,
        is.drop buffer.length) := by
  simp [read, hb, his]

theorem length_read_le (buffer is : List Byte) : (read buffer is).2.2.length ≤ is.length := by
  unfold read
  split
  · exact Nat.le_refl _
  split
  · exact Nat.le_refl _
  · simp

/-- A positive count means that the stream got shorter. -/
theorem length_read_lt {buffer is : List Byte} (h : 0 < (read buffer is).1) :
    (read buffer is).2.2.length < is.length := by
  unfold read at h ⊢
  split at h
  · simp at h
  split at h
  · simp at h
  · rename_i hb his
    have hb' := List.length_pos_iff.mpr hb
    have his' := List.length_pos_iff.mpr his
    simp [hb, his]
    omega

end InputStream

namespace reader

/-- `readInt32`. The count that `read` returns is not looked at, so the bytes
missing at the end of the stream are the zeros of the fresh buffer. -/
def readInt32 (is : List Byte) : BitVec 32 × List Byte :=
  let r := InputStream.read (List.replicate 4 0) is
  let buffer := r.2.1
  let b0 := ((buffer.getD 0 0).signExtend 32 &&& 0x000000ff#32) <<< 24
  let b1 := ((buffer.getD 1 0).signExtend 32 &&& 0x000000ff#32) <<< 16
  let b2 := ((buffer.getD 2 0).signExtend 32 &&& 0x000000ff#32) <<< 8
  let b3 := (buffer.getD 3 0).signExtend 32 &&& 0x000000ff#32
  (b0 + b1 + b2 + b3, r.2.2)

/-- `Thread.sleep(1000 / fps)`: the pause in milliseconds. -/
def sleep (fps : Int) : Except Throwable Int :=
  if fps = 0 then .error .arithmeticException
  else if Int.tdiv 1000 fps < 0 then .error .illegalArgumentException
  else .ok (Int.tdiv 1000 fps)

theorem length_readInt32_le (is : List Byte) : (readInt32 is).2.length ≤ is.length :=
  InputStream.length_read_le _ _

/-- `readChunks` on an open stream: the inner `read` loop under `eatMyShorts`.
The callback gets the whole buffer, however little of it was read. -/
def readChunks (fps : Int) (is : List Byte) : List (List Byte) × Outcome :=
  let size := (readInt32 is).1.toInt
  if size < 0 then ([], .eaten .negativeArraySizeException)
  else
    let buffer := List.replicate size.toNat 0
    match sleep fps with
    | .error x => ([], .eaten x)
    | .ok _ =>
      let len := InputStream.read buffer (readInt32 is).2
      if _h : 0 < len.1 then
        let rest := readChunks fps len.2.2
        (len.2.1 :: rest.1, rest.2)
      else ([], .returned)
termination_by is.length
decreasing_by exact Nat.lt_of_lt_of_le (InputStream.length_read_lt _h) (length_readInt32_le is)

end reader

namespace writer

/-- `writeBEInt32`: the four bytes of `value` behind what `os` wrote before. -/
def writeBEInt32 (value : BitVec 32) (os : List Byte) : List Byte :=
  let b0 := ((value &&& 0xff000000#32).sshiftRight 24).setWidth 8
  let b1 := ((value &&& 0x00ff0000#32).sshiftRight 16).setWidth 8
  let b2 := ((value &&& 0x0000ff00#32).sshiftRight 8).setWidth 8
  let b3 := (value &&& 0x000000ff#32).setWidth 8
  os ++ [b0, b1, b2, b3]

/-- `write`: append the chunk behind its length to the file. -/
def write (file chunk : List Byte) : List Byte :=
  writeBEInt32 (BitVec.ofNat 32 chunk.length) file ++ chunk

end writer

/-- The file after `write` was called with each chunk in turn on a new file. -/
def recording (chunks : List (List Byte)) : List Byte :=
  chunks.foldl writer.write []

/-! ### The writer builds a record stream -/

/-- A number is written in network order. -/
theorem writeBEInt32_eq (value : BitVec 32) (os : List Byte) :
    writer.writeBEInt32 value os = os ++ toBE 4 value.toNat := by
  have h24 : ((value &&& 0xff000000#32).sshiftRight 24).setWidth 8 = (value >>> 24).setWidth 8 :=
    byte_of_signed_masked value (by decide) rfl
  have h16 : ((value &&& 0x00ff0000#32).sshiftRight 16).setWidth 8 = (value >>> 16).setWidth 8 :=
    byte_of_signed_masked value (by decide) rfl
  have h8 : ((value &&& 0x0000ff00#32).sshiftRight 8).setWidth 8 = (value >>> 8).setWidth 8 :=
    byte_of_signed_masked value (by decide) rfl
  have h0 : (value &&& 0x000000ff#32).setWidth 8 = (value >>> 0).setWidth 8 :=
    byte_of_masked value (k := 0) (by decide) rfl
  rw [writer.writeBEInt32, h24, h16, h8, h0, bytes_of_word]

/-- A chunk is written with its length in front. -/
theorem write_eq_frame {chunk : List Byte} (h : chunk.length < 2 ^ 31) (file : List Byte) :
    writer.write file chunk = file ++ frame 4 chunk := by
  have hlen : (BitVec.ofNat 32 chunk.length).toNat = chunk.length := by
    rw [BitVec.toNat_ofNat, Nat.mod_eq_of_lt (by omega)]
  rw [writer.write, writeBEInt32_eq, hlen, frame, List.append_assoc]

/-- A recording is its chunks, each with its length in front. -/
theorem recording_eq_encode {chunks : List (List Byte)} (h : ∀ c ∈ chunks, c.length < 2 ^ 31) :
    recording chunks = encode 4 chunks := by
  suffices hall : ∀ file, chunks.foldl writer.write file = file ++ encode 4 chunks by
    simpa [recording] using hall []
  intro file
  induction chunks generalizing file with
  | nil => simp
  | cons c cs ih =>
    have hc : writer.write file c = file ++ frame 4 c := write_eq_frame (h c (by simp)) file
    rw [List.foldl_cons, hc, ih fun c' hc' => h c' (List.mem_cons_of_mem _ hc')]
    simp

/-! ### One turn of the reader -/

/-- The frame rates for which the pause can be computed. Below -1000 the quotient is
truncated to a pause of no length. -/
def Paced (fps : Int) : Prop := 0 < fps ∨ fps < -1000

instance (fps : Int) : Decidable (Paced fps) := inferInstanceAs (Decidable (_ ∨ _))

/-- The first size of the file is a negative `Int`. -/
def NegativeSize (file : List Byte) : Prop := ∃ b rest, file = b :: rest ∧ 128 ≤ b.toNat

section Turn

variable {fps : Int} {is : List Byte}

theorem sleep_of_paced (h : Paced fps) : ∃ ms, reader.sleep fps = .ok ms := by
  rcases h with hpos | hneg
  · have hnonneg : 0 ≤ Int.tdiv 1000 fps := Int.tdiv_nonneg (by omega) (by omega)
    exact ⟨_, by rw [reader.sleep, if_neg (by omega), if_neg (by omega)]⟩
  · have hzero : Int.tdiv 1000 fps = 0 := by
      have hsmall : Int.tdiv 1000 (-fps) = 0 := Int.tdiv_eq_zero_of_lt (by omega) (by omega)
      rwa [Int.tdiv_neg, Int.neg_eq_zero] at hsmall
    refine ⟨0, ?_⟩
    rw [reader.sleep, if_neg (by omega), if_neg (by omega), hzero]

/-- The first byte of the file is the top byte of the first size, however short the
file is. -/
theorem readInt32_cons (b : Byte) (rest : List Byte) :
    ∃ b1 b2 b3, (reader.readInt32 (b :: rest)).1 = BitVec.ofNat 32 (ofBE [b, b1, b2, b3]) := by
  rw [reader.readInt32, InputStream.read_of_ne_nil (by simp) (by simp)]
  simp only [mask_signed_byte, word_of_bytes]
  exact ⟨_, _, _, rfl⟩

/-- The size is negative if and only if its first bit is set. -/
theorem readInt32_neg_iff : (reader.readInt32 is).1.toInt < 0 ↔ NegativeSize is := by
  cases is with
  | nil =>
    constructor
    · intro h
      exact absurd h (by decide)
    · rintro ⟨b, rest, hnil, -⟩
      cases hnil
  | cons b rest =>
    obtain ⟨b1, b2, b3, hword⟩ := readInt32_cons b rest
    have hlt : ofBE [b, b1, b2, b3] < 2 ^ 32 := by simpa using ofBE_lt [b, b1, b2, b3]
    have hfour := ofBE_four b b1 b2 b3
    rw [hword]
    constructor
    · intro hneg
      refine ⟨b, rest, rfl, ?_⟩
      by_contra hsmall
      have hbelow : ofBE [b, b1, b2, b3] < 2 ^ 31 := by omega
      rw [toInt_ofNat_of_lt hbelow] at hneg
      omega
    · rintro ⟨b', rest', hcons, hbig⟩
      obtain ⟨rfl, rfl⟩ := List.cons.inj hcons
      exact toInt_ofNat_neg (by omega) hlt

/-- Before a negative size nothing is computed from the frame rate. -/
theorem readChunks_of_negative (h : NegativeSize is) :
    reader.readChunks fps is = ([], .eaten .negativeArraySizeException) := by
  have hneg := readInt32_neg_iff.mpr h
  rw [reader.readChunks]
  simp only [if_pos hneg]

/-- What a turn reads behind the size: the count, the buffer and the rest. -/
def nextChunk (is : List Byte) : Int × List Byte × List Byte :=
  InputStream.read (List.replicate (reader.readInt32 is).1.toInt.toNat 0) (reader.readInt32 is).2

/-- One turn of the loop, once the pause can be computed. -/
theorem readChunks_turn (h : Paced fps) (hsize : ¬ NegativeSize is) :
    reader.readChunks fps is =
      if 0 < (nextChunk is).1 then
        ((nextChunk is).2.1 :: (reader.readChunks fps (nextChunk is).2.2).1,
          (reader.readChunks fps (nextChunk is).2.2).2)
      else ([], .returned) := by
  have hnonneg : ¬ (reader.readInt32 is).1.toInt < 0 := mt readInt32_neg_iff.mp hsize
  obtain ⟨ms, hsleep⟩ := sleep_of_paced h
  conv_lhs => rw [reader.readChunks]
  rw [hsleep]
  simp only [if_neg hnonneg]
  split
  · rename_i hread
    exact (if_pos hread).symm
  · rename_i hread
    exact (if_neg hread).symm

/-- Over the turns of the loop: what is left behind a chunk is shorter. -/
theorem turn_induction {P : List Byte → Prop} (negative : ∀ is, NegativeSize is → P is)
    (last : ∀ is, ¬ NegativeSize is → ¬ 0 < (nextChunk is).1 → P is)
    (again : ∀ is, ¬ NegativeSize is → 0 < (nextChunk is).1 → P (nextChunk is).2.2 → P is)
    (is : List Byte) : P is := by
  induction hn : is.length using Nat.strongRecOn generalizing is with
  | ind n ih =>
    subst hn
    by_cases hsize : NegativeSize is
    · exact negative is hsize
    by_cases hread : 0 < (nextChunk is).1
    · have hless : (nextChunk is).2.2.length < is.length :=
        Nat.lt_of_lt_of_le (InputStream.length_read_lt hread) (reader.length_readInt32_le is)
      exact again is hsize hread (ih _ hless _ rfl)
    · exact last is hsize hread

end Turn

/-! ### The reader on a record stream -/

/-- With the four bytes of a length field in front, `readInt32` reads it. -/
theorem readInt32_of_le {is : List Byte} (h : 4 ≤ is.length) :
    reader.readInt32 is = (BitVec.ofNat 32 (header 4 is), is.drop 4) := by
  obtain ⟨b0, b1, b2, b3, rest, rfl⟩ : ∃ b0 b1 b2 b3 rest, is = b0 :: b1 :: b2 :: b3 :: rest := by
    match is, h with
    | b0 :: b1 :: b2 :: b3 :: rest, _ => exact ⟨b0, b1, b2, b3, rest, rfl⟩
  rw [reader.readInt32, InputStream.read_of_ne_nil (by simp) (by simp)]
  simp [mask_signed_byte, header, ← word_of_bytes]

/-- Fewer bytes are all used up by the length field. -/
theorem readInt32_of_lt {is : List Byte} (h : is.length < 4) : (reader.readInt32 is).2 = [] := by
  by_cases his : is = []
  · simp [reader.readInt32, InputStream.read, his]
  · rw [reader.readInt32, InputStream.read_of_ne_nil (by simp) his]
    simp only [List.length_replicate]
    exact List.drop_eq_nil_of_le (by omega)

section Loop

variable {fps : Int} {is : List Byte}

/-- One turn of the loop behind a length below 2^31. -/
theorem readChunks_of_lt (hfps : 1 ≤ fps) (h : 4 ≤ is.length) (hsize : header 4 is < 2 ^ 31) :
    reader.readChunks fps is =
      let len := InputStream.read (List.replicate (header 4 is) 0) (is.drop 4)
      if 0 < len.1 then
        (len.2.1 :: (reader.readChunks fps len.2.2).1, (reader.readChunks fps len.2.2).2)
      else ([], .returned) := by
  have hsize' : ¬ NegativeSize is := by
    rw [← readInt32_neg_iff, readInt32_of_le h, toInt_ofNat_of_lt hsize]
    exact Int.not_lt.mpr (Int.natCast_nonneg _)
  rw [readChunks_turn (.inl hfps) hsize', nextChunk, readInt32_of_le h, toInt_ofNat_of_lt hsize,
    Int.toNat_natCast]

/-- A length from 2^31 on is a negative array size. -/
theorem readChunks_of_ge (h : 4 ≤ is.length) (hsize : 2 ^ 31 ≤ header 4 is) :
    reader.readChunks fps is = ([], .eaten .negativeArraySizeException) := by
  have hlt : header 4 is < 2 ^ 32 := header_four_lt h
  apply readChunks_of_negative
  rw [← readInt32_neg_iff, readInt32_of_le h]
  exact toInt_ofNat_neg hsize hlt

/-- A chunk that is whole is read, and the rest after it. -/
theorem readChunks_frame (hfps : 1 ≤ fps) {c : List Byte} (hne : c ≠ [])
    (hlen : c.length < 2 ^ 31) (rest : List Byte) :
    reader.readChunks fps (frame 4 c ++ rest) =
      (c :: (reader.readChunks fps rest).1, (reader.readChunks fps rest).2) := by
  have hpos := List.length_pos_iff.mpr hne
  have hheader : header 4 (frame 4 c ++ rest) = c.length := header_frame (by omega) rest
  have hdrop : (frame 4 c ++ rest).drop 4 = c ++ rest := by simp [frame]
  rw [readChunks_of_lt hfps (by simp; omega) (by rw [hheader]; exact hlen), hheader, hdrop,
    InputStream.read_of_ne_nil (by simpa using hne) (by simp [hne])]
  simp [hne]

/-- At the end of the file the loop stops by itself. -/
theorem readChunks_nil (hfps : 1 ≤ fps) : reader.readChunks fps [] = ([], .returned) := by
  have hsize : ¬ NegativeSize [] := by
    rintro ⟨b, rest, hnil, -⟩
    cases hnil
  rw [readChunks_turn (.inl hfps) hsize]
  rfl

/-- At the end of the file there are no more chunks. -/
theorem readChunks_ends (hfps : 1 ≤ fps) (h : Ends 4 is) : (reader.readChunks fps is).1 = [] := by
  rcases Nat.lt_or_ge is.length 4 with hshort | hlong
  · -- nothing is left for the chunk, whatever its announced size
    by_cases hsize : NegativeSize is
    · rw [readChunks_of_negative hsize]
    · rw [readChunks_turn (.inl hfps) hsize, nextChunk, readInt32_of_lt hshort]
      simp only [InputStream.read]
      split <;> simp
  · have hzero : header 4 is = 0 := by
      rcases h with hlt | hz
      · omega
      · exact hz
    rw [readChunks_of_lt hfps hlong (by omega), hzero]
    simp [InputStream.read]

/-- In front of a record the file does not hold: a negative size ends the call,
an empty rest ends the loop, and a cut chunk is handed out filled up with
zeros to its announced length. -/
theorem readChunks_cut (hfps : 1 ≤ fps) (h : Cut 4 (2 ^ 31) is) :
    (reader.readChunks fps is).1 = [] ∨
      (header 4 is < 2 ^ 31 ∧ ∃ zeros ≠ [],
        (reader.readChunks fps is).1 = [is.drop 4 ++ zeros]) := by
  obtain ⟨hlen, hpos, hbig⟩ := h
  rcases Nat.lt_or_ge (header 4 is) (2 ^ 31) with hlt | hge
  · have hcut : is.length < 4 + header 4 is := by omega
    rw [readChunks_of_lt hfps hlen hlt]
    have hbuffer : List.replicate (header 4 is) (0 : Byte) ≠ [] := by
      simp only [ne_eq, List.replicate_eq_nil_iff]
      omega
    by_cases hrest : is.drop 4 = []
    · left
      simp [InputStream.read, hpos.ne', hrest]
    · right
      rw [InputStream.read_of_ne_nil hbuffer hrest]
      have hdrop := List.length_pos_iff.mpr hrest
      have htake : (is.drop 4).take (header 4 is) = is.drop 4 :=
        List.take_of_length_le (by simp only [List.length_drop]; omega)
      have hnil : (is.drop 4).drop (header 4 is) = [] :=
        List.drop_eq_nil_of_le (by simp only [List.length_drop]; omega)
      simp only [List.length_replicate, htake, hnil, readChunks_nil hfps]
      refine ⟨hlt, (List.replicate (header 4 is) 0).drop (is.drop 4).length, ?_, ?_⟩
      · apply List.ne_nil_of_length_pos
        simp only [List.length_drop, List.length_replicate]
        omega
      · rw [if_pos (by omega)]
  · exact .inl (by rw [readChunks_of_ge hlen hge])

/-- Whole records are handed out one by one before the rest is looked at. -/
theorem readChunks_encode (hfps : 1 ≤ fps) {cs : List (List Byte)}
    (hall : ∀ c ∈ cs, c ≠ [] ∧ c.length < 2 ^ 31) (rest : List Byte) :
    reader.readChunks fps (encode 4 cs ++ rest) =
      (cs ++ (reader.readChunks fps rest).1, (reader.readChunks fps rest).2) := by
  induction cs with
  | nil => simp
  | cons c cs ih =>
    obtain ⟨hne, hlen⟩ := hall c (by simp)
    have hcs := ih fun c' hc' => hall c' (List.mem_cons_of_mem _ hc')
    rw [encode_cons, List.append_assoc, readChunks_frame hfps hne hlen, hcs]
    rfl

end Loop

/-! ### Two runs with different frame rates

Between the two sizes of a turn only the pause depends on the frame rate, and only by
whether it can be computed: `readChunks_congr` for two rates for which it can,
`readChunks_unpaced` for one for which it cannot. -/

section Pacing

/-- The call was ended by the computation of the pause. -/
def Outcome.DelayFailed (outcome : Outcome) : Prop :=
  outcome = .eaten .arithmeticException ∨ outcome = .eaten .illegalArgumentException

variable {fps fps' : Int} {is : List Byte}

/-- At a rate that is not paced the delay throws. -/
theorem sleep_of_not_paced (h : ¬ Paced fps) :
    ∃ x, reader.sleep fps = .error x ∧ (Outcome.eaten x).DelayFailed := by
  have hrange : fps ≤ 0 ∧ -1000 ≤ fps := by
    unfold Paced at h
    omega
  by_cases hzero : fps = 0
  · exact ⟨.arithmeticException, by rw [reader.sleep, if_pos hzero], .inl rfl⟩
  · have hquot : 1 ≤ Int.tdiv 1000 (-fps) := by
      rw [Int.tdiv_eq_ediv_of_nonneg (by omega)]
      exact (Int.le_ediv_iff_mul_le (by omega)).mpr (by omega)
    rw [Int.tdiv_neg] at hquot
    refine ⟨.illegalArgumentException, ?_, .inr rfl⟩
    rw [reader.sleep, if_neg hzero, if_pos (by omega)]

/-- At a rate that is impossible no chunk is handed out, and the failure is eaten. -/
theorem readChunks_unpaced (hsize : ¬ NegativeSize is) (h : ¬ Paced fps) :
    ∃ outcome, reader.readChunks fps is = ([], outcome) ∧ outcome.DelayFailed := by
  have hnonneg : ¬ (reader.readInt32 is).1.toInt < 0 := mt readInt32_neg_iff.mp hsize
  obtain ⟨x, hsleep, hfailed⟩ := sleep_of_not_paced h
  refine ⟨.eaten x, ?_, hfailed⟩
  rw [reader.readChunks, hsleep]
  simp only [if_neg hnonneg]

/-- Two frame rates with a pause give one run. -/
theorem readChunks_congr (h : Paced fps) (h' : Paced fps') :
    reader.readChunks fps is = reader.readChunks fps' is := by
  induction is using turn_induction with
  | negative is hsize => rw [readChunks_of_negative hsize, readChunks_of_negative hsize]
  | last is hsize hread =>
    rw [readChunks_turn h hsize, readChunks_turn h' hsize, if_neg hread, if_neg hread]
  | again is hsize hread ih =>
    rw [readChunks_turn h hsize, readChunks_turn h' hsize, if_pos hread, if_pos hread, ih]

theorem not_delayFailed (h : Paced fps) : ¬ (reader.readChunks fps is).2.DelayFailed := by
  induction is using turn_induction with
  | negative is hsize =>
    rw [readChunks_of_negative hsize]
    rintro (hfailed | hfailed) <;> cases hfailed
  | last is hsize hread =>
    rw [readChunks_turn h hsize, if_neg hread]
    rintro (hfailed | hfailed) <;> cases hfailed
  | again is hsize hread ih =>
    rw [readChunks_turn h hsize, if_pos hread]
    exact ih

/-- The delay fails if and only if there is a chunk to wait for and the rate is
impossible. -/
theorem delayFailed_iff :
    (reader.readChunks fps is).2.DelayFailed ↔ ¬ NegativeSize is ∧ ¬ Paced fps := by
  constructor
  · intro hfailed
    constructor
    · intro hsize
      rw [readChunks_of_negative hsize] at hfailed
      rcases hfailed with hfailed | hfailed <;> cases hfailed
    · intro h
      exact not_delayFailed h hfailed
  · rintro ⟨hsize, h⟩
    obtain ⟨outcome, hrun, hfailed⟩ := readChunks_unpaced hsize h
    rw [hrun]
    exact hfailed

/-- The chunks do not depend on the frame rate, and no delay fails, exactly for two
rates with a pause; a file whose first size is negative needs no pause. -/
theorem readChunks_paced_iff (fps fps' : Int) (file : List Byte) :
    ((reader.readChunks fps file).1 = (reader.readChunks fps' file).1 ∧
        ¬ (reader.readChunks fps file).2.DelayFailed ∧
        ¬ (reader.readChunks fps' file).2.DelayFailed) ↔
      NegativeSize file ∨ (Paced fps ∧ Paced fps') := by
  rw [delayFailed_iff, delayFailed_iff]
  constructor
  · rintro ⟨-, h, h'⟩
    by_cases hsize : NegativeSize file
    · exact .inl hsize
    · simp only [hsize, not_false_eq_true, true_and, not_not] at h h'
      exact .inr ⟨h, h'⟩
  · rintro (hsize | ⟨h, h'⟩)
    · rw [readChunks_of_negative hsize, readChunks_of_negative hsize]
      exact ⟨rfl, fun hfailed => hfailed.1 hsize, fun hfailed => hfailed.1 hsize⟩
    · exact ⟨congrArg Prod.fst (readChunks_congr h h'), fun hfailed => hfailed.2 h,
        fun hfailed => hfailed.2 h'⟩

/-- One frame of one byte: it is delivered at ten frames a second, and at none a second
or at minus one the call ends in front of it without an error. -/
theorem rates_without_chunks :
    reader.readChunks 10 [0, 0, 0, 1, 7] = ([[7]], .returned) ∧
      reader.readChunks 0 [0, 0, 0, 1, 7] = ([], .eaten .arithmeticException) ∧
      reader.readChunks (-1) [0, 0, 0, 1, 7] = ([], .eaten .illegalArgumentException) := by
  have hframe : ([0, 0, 0, 1, 7] : List Byte) = frame 4 [7] ++ [] := by decide
  refine ⟨?_, ?_, ?_⟩
  · rw [hframe, readChunks_frame (by decide) (by decide) (by decide), readChunks_nil (by decide)]
  · rw [reader.readChunks]
    rfl
  · rw [reader.readChunks]
    rfl

end Pacing

end Sogx.Utils
