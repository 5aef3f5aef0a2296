import Sogx.Lib.Records
import Sogx.Lib.Loop

/-!
`im.cpp`: the message that carries images over AMQP.

Without `SIMPLE_MESSAGE` a body is a magic number, a count, a table of as many
sizes, and the images. `construct` decodes it and `writeAmqpBytes` encodes it.

* `extract_iff`: what the loop over the size table gives is decided by where
  the table and the images stand in the body.
* `construct_iff`: below a count of 2^31 a body is accepted exactly when the
  encoding of the images stands in front of it.
* `round_trip_iff`: decoding inverts encoding, and encoding inverts decoding
  exactly when the count field is below 2^31; a count that turns negative is
  taken for no images (`negative_count_is_accepted`).
* `staysInside_iff`: the bodies the decoder does not read past.
-/

namespace Sogx

open Sogx.Lib Sogx.Lib.Records

abbrev Image := List Byte

/-- What decoding can run into besides a result. The last two have no defined
outcome in the source: a signed overflow, and a range of iterators that does
not lie inside the vector. -/
inductive Fault where
  | imageMessageException | outOfRange | overflow | wildIterator
deriving DecidableEq, Repr

structure ImageMessage where
  m_images : List Image
deriving DecidableEq, Repr

namespace ImageMessage

/-- The value of an `int` computation. -/
def int (n : Int) : Except Fault Int :=
  if -2 ^ 31 ≤ n ∧ n < 2 ^ 31 then .ok n else .error .overflow

/-- The conversion of an `int` to `size_t`. -/
def size_t (n : Int) : Nat := (BitVec.ofInt 64 n).toNat

/-- `std::vector::at`. -/
def vectorAt (buffer : List Byte) (offset : Int) : Except Fault Byte :=
  match buffer[size_t offset]? with
  | some b => .ok b
  | none => .error .outOfRange

/-- The vector between two iterators of `buffer`. -/
def range (buffer : List Byte) (first last : Int) : Except Fault (List Byte) :=
  if 0 ≤ first ∧ first ≤ last ∧ last ≤ buffer.length then
    .ok ((buffer.drop first.toNat).take (last - first).toNat)
  else .error .wildIterator

def read (buffer : List Byte) (offset : Int) : Except Fault (BitVec 32) := do
  if buffer.length < size_t (← int (offset + 4)) then throw .imageMessageException
  let b0 := ((← vectorAt buffer offset).setWidth 32 &&& 0x000000ff#32) <<< 24
  let b1 := ((← vectorAt buffer (offset + 1)).setWidth 32 &&& 0x000000ff#32) <<< 16
  let b2 := ((← vectorAt buffer (offset + 2)).setWidth 32 &&& 0x000000ff#32) <<< 8
  let b3 := (← vectorAt buffer (offset + 3)).setWidth 32 &&& 0x000000ff#32
  return b0 + b1 + b2 + b3

def assertMagic (buffer : List Byte) : Except Fault Unit := do
  let magic ← read buffer 0
  if magic ≠ 0xface0fb0#32 then throw .imageMessageException

/-- The `for` loop of the constructor, from image `i` on with `n` turns left. -/
def extract (body : List Byte) : Nat → Int → Int → Except Fault (List Image)
  | 0, _, _ => .ok []
  | n + 1, i, dataStart => do
    let size := (← read body (← int (8 + i * 4))).toInt
    let image ← range body dataStart (dataStart + size)
    let images ← extract body n (i + 1) (← int (dataStart + size))
    return image :: images

/-- The constructor. The build defines `SIMPLE_MESSAGE`, which makes the whole
body one image. -/
def construct (simpleMessage : Bool) (body : List Byte) : Except Fault ImageMessage := do
  if simpleMessage then return ⟨[body]⟩
  assertMagic body
  let count := (← read body 4).toInt
  let dataStart ← int (8 + (← int (4 * count)))
  return ⟨← extract body count.toNat 0 dataStart⟩

def headImage (m : ImageMessage) : Except Fault Image :=
  match m.m_images with
  | image :: _ => .ok image
  | [] => .error .outOfRange

/-- `writeBEInt32`. The mask of the top byte makes the word unsigned. -/
def writeBEInt32 (value : BitVec 32) (vec : List Byte) : List Byte :=
  let b0 := ((value &&& 0xff000000#32) >>> 24).setWidth 8
  let b1 := ((value &&& 0x00ff0000#32) >>> 16).setWidth 8
  let b2 := ((value &&& 0x0000ff00#32) >>> 8).setWidth 8
  let b3 := (value &&& 0x000000ff#32).setWidth 8
  vec ++ [b0, b1, b2, b3]

def writeAmqpBytes (m : ImageMessage) (body : List Byte) : List Byte :=
  let body := writeBEInt32 0xface0fb0#32 body
  let body := writeBEInt32 (BitVec.ofNat 32 m.m_images.length) body
  let body := m.m_images.foldl (fun vec i => writeBEInt32 (BitVec.ofNat 32 i.length) vec) body
  m.m_images.foldl (fun vec i => vec ++ i) body

/-! ### The layout of an encoding -/

/-- The size table. -/
def table (images : List Image) : List Byte := images.flatMap fun i => toBE 4 i.length

/-- `8 + 4 * count + sum of sizes`. -/
def framedSize (images : List Image) : Nat := 8 + 4 * images.length + images.flatten.length

/-- Magic number, count, size table, images. -/
def layout (images : List Image) : List Byte :=
  toBE 4 0xface0fb0 ++ (toBE 4 images.length ++ (table images ++ images.flatten))

@[simp] theorem table_cons (i : Image) (is : List Image) :
    table (i :: is) = toBE 4 i.length ++ table is := rfl

@[simp] theorem length_table (images : List Image) : (table images).length = 4 * images.length := by
  induction images with
  | nil => rfl
  | cons i is ih =>
    rw [table_cons, List.length_append, ih, length_toBE, List.length_cons]
    omega

/-- The layout has the size that is computed for it. -/
theorem length_layout (images : List Image) : (layout images).length = framedSize images := by
  simp only [layout, framedSize, List.length_append, length_toBE, length_table]
  omega

theorem writeBEInt32_eq (value : BitVec 32) (vec : List Byte) :
    writeBEInt32 value vec = vec ++ toBE 4 value.toNat := by
  have h24 : ((value &&& 0xff000000#32) >>> 24).setWidth 8 = (value >>> 24).setWidth 8 :=
    byte_of_masked value (by decide) rfl
  have h16 : ((value &&& 0x00ff0000#32) >>> 16).setWidth 8 = (value >>> 16).setWidth 8 :=
    byte_of_masked value (by decide) rfl
  have h8 : ((value &&& 0x0000ff00#32) >>> 8).setWidth 8 = (value >>> 8).setWidth 8 :=
    byte_of_masked value (by decide) rfl
  have h0 : (value &&& 0x000000ff#32).setWidth 8 = (value >>> 0).setWidth 8 :=
    byte_of_masked value (k := 0) (by decide) rfl
  rw [writeBEInt32, h24, h16, h8, h0, bytes_of_word]

/-- A number below 2^32 is written as its four bytes. -/
theorem writeBEInt32_ofNat {n : Nat} (h : n < 2 ^ 32) (vec : List Byte) :
    writeBEInt32 (BitVec.ofNat 32 n) vec = vec ++ toBE 4 n := by
  rw [writeBEInt32_eq, BitVec.toNat_ofNat, Nat.mod_eq_of_lt h]

/-- The loop writes the table of the lengths. -/
theorem foldl_writeBEInt32 {images : List Image} (h : images.flatten.length < 2 ^ 31)
    (vec : List Byte) :
    images.foldl (fun vec i => writeBEInt32 (BitVec.ofNat 32 i.length) vec) vec =
      vec ++ table images := by
  induction images generalizing vec with
  | nil => simp [table]
  | cons i is ih =>
    rw [List.flatten_cons, List.length_append] at h
    rw [List.foldl_cons, writeBEInt32_ofNat (by omega), ih (by omega), table_cons,
      List.append_assoc]

/-- The encoder writes the layout. -/
theorem writeAmqpBytes_eq {images : List Image} (h : framedSize images < 2 ^ 31) :
    writeAmqpBytes ⟨images⟩ [] = layout images := by
  have hflatten : ∀ vec, images.foldl (fun vec i => vec ++ i) vec = vec ++ images.flatten := by
    intro vec
    induction images generalizing vec with
    | nil => simp
    | cons i is ih =>
      simp only [framedSize, List.flatten_cons, List.length_append, List.length_cons] at h
      rw [List.foldl_cons, ih (by simp only [framedSize]; omega), List.flatten_cons,
        List.append_assoc]
  have hmagic : (0xface0fb0#32).toNat = 0xface0fb0 := rfl
  simp only [framedSize] at h
  simp only [writeAmqpBytes]
  rw [writeBEInt32_eq 0xface0fb0#32, hmagic, writeBEInt32_ofNat (by omega),
    foldl_writeBEInt32 (by omega), hflatten, layout]
  simp

/-! ### What the decoder accepts -/

theorem int_of_lt {n : Nat} (h : n < 2 ^ 31) : int n = .ok (n : Int) :=
  if_pos ⟨by omega, by omega⟩

theorem int_eq_ok {n m : Int} : int n = .ok m ↔ n = m ∧ -2 ^ 31 ≤ n ∧ n < 2 ^ 31 := by
  unfold int
  constructor
  · intro h
    split at h
    · rename_i hin
      exact ⟨Except.ok.inj h, hin⟩
    · cases h
  · rintro ⟨rfl, hin⟩
    exact if_pos hin

theorem int_error {n : Int} {f : Fault} (h : int n = .error f) : f = .overflow := by
  unfold int at h
  split at h
  · cases h
  · exact (Except.error.inj h).symm

theorem size_t_of_lt {n : Nat} (h : n < 2 ^ 32) : size_t n = n := by
  rw [size_t, BitVec.ofInt_natCast, BitVec.toNat_ofNat, Nat.mod_eq_of_lt (by omega)]

/-- A range inside the body is the image that stands there. -/
theorem range_eq_ok {body image : List Byte} {s : Nat} {size : Int} :
    range body s (s + size) = .ok image ↔
      (image.length : Int) = size ∧ StandsAt image s body ∧ s + image.length ≤ body.length := by
  unfold range
  constructor
  · intro h
    split at h
    · rename_i hin
      have hlen : (((s : Int) + size) - s).toNat = size.toNat := by omega
      obtain rfl := Except.ok.inj h
      rw [hlen, Int.toNat_natCast, List.length_take, List.length_drop]
      refine ⟨by omega, ?_, by omega⟩
      exact List.take_prefix _ _
    · cases h
  · rintro ⟨rfl, hstands, hle⟩
    have hlen : (((s : Int) + image.length) - s).toNat = image.length := by omega
    rw [if_pos (by omega), hlen, Int.toNat_natCast, hstands.take]

theorem range_error {buffer : List Byte} {first last : Int} {f : Fault}
    (h : range buffer first last = .error f) : f = .wildIterator := by
  unfold range at h
  split at h
  · cases h
  · exact (Except.error.inj h).symm

/-- A range that was taken is inside the buffer. -/
theorem range_bounds {buffer image : List Byte} {first last : Int}
    (h : range buffer first last = .ok image) :
    0 ≤ first ∧ first ≤ last ∧ last ≤ buffer.length := by
  unfold range at h
  split at h
  · assumption
  · cases h

theorem vectorAt_drop {buffer : List Byte} {k j : Nat} {b : Byte} (h : k + j < 2 ^ 32)
    (hb : (buffer.drop k)[j]? = some b) : vectorAt buffer ((k : Int) + (j : Int)) = .ok b := by
  have hcast : (k : Int) + (j : Int) = ((k + j : Nat) : Int) := by omega
  rw [List.getElem?_drop] at hb
  rw [vectorAt, hcast, size_t_of_lt h, hb]

/-- `read` at an offset that an `int` can hold. -/
theorem read_natCast {body : List Byte} {k : Nat} (h : k + 4 < 2 ^ 31) :
    read body k = if body.length < k + 4 then .error .imageMessageException
      else .ok (BitVec.ofNat 32 (header 4 (body.drop k))) := by
  have hint : int ((k : Int) + 4) = .ok ((k + 4 : Nat) : Int) := int_of_lt h
  rw [read, hint]
  simp only [bind, Except.bind, size_t_of_lt (show k + 4 < 2 ^ 32 by omega)]
  split
  · rfl
  · rename_i hle
    obtain ⟨b0, b1, b2, b3, rest, hdrop⟩ : ∃ b0 b1 b2 b3 rest,
        body.drop k = b0 :: b1 :: b2 :: b3 :: rest := by
      have hlen : 4 ≤ (body.drop k).length := by
        rw [List.length_drop]
        omega
      match body.drop k, hlen with
      | b0 :: b1 :: b2 :: b3 :: rest, _ => exact ⟨b0, b1, b2, b3, rest, rfl⟩
    have h0 : vectorAt body (k : Int) = .ok b0 :=
      vectorAt_drop (j := 0) (by omega) (by simp [hdrop])
    have h1 : vectorAt body ((k : Int) + 1) = .ok b1 :=
      vectorAt_drop (j := 1) (by omega) (by simp [hdrop])
    have h2 : vectorAt body ((k : Int) + 2) = .ok b2 :=
      vectorAt_drop (j := 2) (by omega) (by simp [hdrop])
    have h3 : vectorAt body ((k : Int) + 3) = .ok b3 :=
      vectorAt_drop (j := 3) (by omega) (by simp [hdrop])
    simp [h0, h1, h2, h3, hdrop, mask_byte, header, ← word_of_bytes, pure, Except.pure]

/-- One turn of the loop: the next size stands in the table, and as many bytes
stand at `dataStart`. -/
theorem extract_succ {body : List Byte} {n i s : Nat} {images : List Image}
    (hi : 8 + 4 * i + 4 < 2 ^ 31) :
    extract body (n + 1) i s = .ok images ↔
      ∃ image rest, images = image :: rest ∧
        StandsAt (toBE 4 image.length) (8 + 4 * i) body ∧ StandsAt image s body ∧
        s + image.length ≤ body.length ∧ s + image.length < 2 ^ 31 ∧
        extract body n (i + 1 : Nat) (s + image.length : Nat) = .ok rest := by
  have hoffset : int (8 + (i : Int) * 4) = .ok ((8 + 4 * i : Nat) : Int) := by
    have hcast : (8 + (i : Int) * 4) = ((8 + 4 * i : Nat) : Int) := by omega
    rw [hcast, int_of_lt (by omega)]
  rw [extract, hoffset]
  simp only [bind_eq_ok, Except.ok.injEq, exists_eq_left', read_natCast hi]
  constructor
  · rintro ⟨word, hword, image, himage, next, hnext, rest, hrest, hpure⟩
    obtain rfl : image :: rest = images := Except.ok.inj hpure
    split at hword
    · cases hword
    · rename_i hle
      obtain rfl := Except.ok.inj hword
      obtain ⟨hsize, hstands, hend⟩ := range_eq_ok.mp himage
      obtain ⟨rfl, -, hlt⟩ := int_eq_ok.mp hnext
      rw [← hsize] at hlt hrest
      have hlt32 : header 4 (body.drop (8 + 4 * i)) < 2 ^ 32 :=
        header_four_lt (by rw [List.length_drop]; omega)
      have hheader : header 4 (body.drop (8 + 4 * i)) = image.length :=
        eq_of_toInt_ofNat hlt32 hsize.symm
      refine ⟨image, rest, rfl, (standsAt_toBE (by decide) (by omega)).mpr ⟨by omega, hheader⟩,
        hstands, hend, by omega, hrest⟩
  · rintro ⟨image, rest, rfl, hsize, hstands, hend, hlt, hrest⟩
    obtain ⟨hle, hheader⟩ := (standsAt_toBE (by decide) (by omega)).mp hsize
    have htoInt : (BitVec.ofNat 32 image.length).toInt = image.length := toInt_ofNat_of_lt (by omega)
    refine ⟨_, if_neg (by omega), image, ?_, _, ?_, rest, hrest, rfl⟩
    · rw [hheader, htoInt]
      exact range_eq_ok.mpr ⟨rfl, hstands, hend⟩
    · rw [hheader, htoInt]
      exact int_of_lt (n := s + image.length) hlt

/-- The loop gives exactly the images that stand one after the other from
`dataStart` on and whose sizes stand in the table. -/
theorem extract_iff {body : List Byte} {n i s : Nat} {images : List Image}
    (hi : 8 + 4 * (i + n) < 2 ^ 31) (hs : s < 2 ^ 31) :
    extract body n i s = .ok images ↔
      images.length = n ∧ StandsAt (table images) (8 + 4 * i) body ∧
        StandsAt images.flatten s body ∧ (images = [] ∨ s + images.flatten.length ≤ body.length) ∧
        s + images.flatten.length < 2 ^ 31 := by
  induction n generalizing i s images with
  | zero =>
    constructor
    · intro h
      obtain rfl := Except.ok.inj h
      exact ⟨rfl, standsAt_nil _ _, standsAt_nil _ _, .inl rfl, hs⟩
    · rintro ⟨hlen, -⟩
      rw [List.length_eq_zero_iff.mp hlen]
      rfl
  | succ n ih =>
    rw [extract_succ (by omega)]
    constructor
    · rintro ⟨image, rest, rfl, hsize, himage, hend, hlt, hrest⟩
      obtain ⟨hlen, htable, hflat, hin, hbound⟩ := (ih (by omega) hlt).mp hrest
      rw [table_cons, List.flatten_cons, standsAt_append, standsAt_append, length_toBE,
        List.length_append, ← Nat.add_assoc]
      refine ⟨by rw [List.length_cons, hlen], ⟨hsize, htable⟩, ⟨himage, hflat⟩, .inr ?_, hbound⟩
      rcases hin with rfl | hle
      · simpa using hend
      · exact hle
    · rintro ⟨hlen, htable, hflat, hin, hbound⟩
      cases images with
      | nil => cases hlen
      | cons image rest =>
        rw [table_cons, standsAt_append, length_toBE] at htable
        rw [List.flatten_cons, standsAt_append] at hflat
        rw [List.flatten_cons, List.length_append, ← Nat.add_assoc] at hin hbound
        have hle : s + image.length + rest.flatten.length ≤ body.length := by
          rcases hin with hnil | hle
          · cases hnil
          · exact hle
        refine ⟨image, rest, rfl, htable.1, hflat.1, by omega, by omega, ?_⟩
        rw [ih (by omega) (by omega)]
        exact ⟨Nat.succ.inj hlen, htable.2, hflat.2, .inr hle, hbound⟩

/-! ### Decoding and encoding -/

/-- The number in the count field. -/
def countField (body : List Byte) : Nat := header 4 (body.drop 4)

/-- The count as the decoder's `int`. -/
def count (body : List Byte) : Int := (BitVec.ofNat 32 (countField body)).toInt

/-- The magic number is that of the code. -/
theorem assertMagic_iff {body : List Byte} :
    assertMagic body = .ok () ↔ StandsAt (toBE 4 0xface0fb0) 0 body := by
  have hread : read body ((0 : Nat) : Int) = _ := read_natCast (by decide)
  rw [standsAt_toBE (by decide) (by decide), Nat.zero_add, List.drop_zero, assertMagic]
  simp only [Int.ofNat_zero, Nat.zero_add, List.drop_zero] at hread
  rw [hread]
  split
  · rename_i hlt
    constructor
    · intro h
      cases h
    · rintro ⟨hle, -⟩
      omega
  · rename_i hle
    have hlt : header 4 body < 2 ^ 32 := header_four_lt (by omega)
    have hword : BitVec.ofNat 32 (header 4 body) = 0xface0fb0#32 ↔ header 4 body = 0xface0fb0 := by
      rw [← BitVec.toNat_inj, BitVec.toNat_ofNat, Nat.mod_eq_of_lt hlt]
      rfl
    simp only [bind, Except.bind, ne_eq, hword]
    split
    · rename_i hne
      simp [hne, throw, throwThe, MonadExceptOf.throw]
    · rename_i heq
      simp [not_not.mp heq, pure, Except.pure]
      omega

/-- A body is read if it has the number and a header, no sum overflows and each image is
inside. -/
theorem construct_eq_ok {body : List Byte} {m : ImageMessage} :
    construct false body = .ok m ↔
      StandsAt (toBE 4 0xface0fb0) 0 body ∧ 8 ≤ body.length ∧
        ∃ d dataStart, int (4 * count body) = .ok d ∧ int (8 + d) = .ok dataStart ∧
          extract body (count body).toNat 0 dataStart = .ok m.m_images := by
  have hread : read body ((4 : Nat) : Int) = _ := read_natCast (by decide)
  simp only [construct, Bool.false_eq_true, if_false, bind_eq_ok]
  constructor
  · rintro ⟨⟨⟩, hmagic, word, hword, d, hd, dataStart, hstart, images, himages, hm⟩
    rw [show (4 : Int) = ((4 : Nat) : Int) from rfl, hread] at hword
    split at hword
    · cases hword
    · rename_i hle
      obtain rfl := Except.ok.inj hword
      obtain rfl := Except.ok.inj hm
      exact ⟨assertMagic_iff.mp hmagic, by omega, d, dataStart, hd, hstart, himages⟩
  · rintro ⟨hmagic, hle, d, dataStart, hd, hstart, himages⟩
    refine ⟨(), assertMagic_iff.mpr hmagic, BitVec.ofNat 32 (countField body), ?_, d, hd,
      dataStart, hstart, m.m_images, himages, rfl⟩
    exact hread.trans (if_neg (by omega))

/-- The pieces of a layout at the front of a body. -/
theorem layout_prefix_iff {body : List Byte} {images : List Image}
    (h : images.length < 2 ^ 31) :
    layout images <+: body ↔
      StandsAt (toBE 4 0xface0fb0) 0 body ∧ 8 ≤ body.length ∧
        countField body = images.length ∧ StandsAt (table images) 8 body ∧
        StandsAt images.flatten (8 + 4 * images.length) body := by
  have hstands : layout images <+: body ↔ StandsAt (layout images) 0 body := by
    rw [StandsAt, List.drop_zero]
  rw [hstands, layout, standsAt_append, standsAt_append, standsAt_append, length_toBE,
    length_toBE, length_table, standsAt_toBE (by decide) (by omega : images.length < 256 ^ 4)]
  simp only [Nat.zero_add, Nat.reduceAdd, and_assoc, countField]

/-- Below a count of 2^31 a body is accepted exactly when the encoding of the
images stands in front of it. -/
theorem construct_iff {body : List Byte} {images : List Image}
    (hcount : countField body < 2 ^ 31) :
    construct false body = .ok ⟨images⟩ ↔
      framedSize images < 2 ^ 31 ∧ layout images <+: body := by
  have hint : count body = countField body := toInt_ofNat_of_lt hcount
  rw [construct_eq_ok, hint, Int.toNat_natCast]
  constructor
  · rintro ⟨hmagic, hle, d, dataStart, hd, hstart, hextract⟩
    obtain ⟨rfl, -, -⟩ := int_eq_ok.mp hd
    obtain ⟨rfl, -, hlt⟩ := int_eq_ok.mp hstart
    change extract _ _ _ _ = .ok images at hextract
    obtain ⟨hlen, htable, hflat, -, hbound⟩ :=
      (extract_iff (i := 0) (s := 8 + 4 * countField body) (by omega) (by omega)).mp hextract
    rw [← hlen] at hflat hbound
    exact ⟨hbound, (layout_prefix_iff (by omega)).mpr ⟨hmagic, hle, hlen.symm, htable, hflat⟩⟩
  · rintro ⟨hbound, hprefix⟩
    have hlayout := hprefix.length_le
    rw [length_layout] at hlayout
    unfold framedSize at hbound hlayout
    obtain ⟨hmagic, hle, hlen, htable, hflat⟩ := (layout_prefix_iff (by omega)).mp hprefix
    refine ⟨hmagic, hle, (4 * countField body : Nat), (8 + 4 * countField body : Nat), ?_, ?_, ?_⟩
    · exact int_of_lt (n := 4 * countField body) (by omega)
    · exact int_of_lt (n := 8 + 4 * countField body) (by omega)
    · rw [hlen]
      refine (extract_iff (i := 0) (by omega) (by omega)).mpr ⟨rfl, htable, hflat, .inr ?_, ?_⟩
      · omega
      · omega

theorem countField_layout {images : List Image} (h : images.length < 2 ^ 31) :
    countField (layout images) = images.length :=
  ((layout_prefix_iff h).mp (List.prefix_refl _)).2.2.1

/-- A count from 2^31 on is negative, so the loop does not run. -/
theorem construct_of_ge {body : List Byte} {m : ImageMessage}
    (h : construct false body = .ok m) (hcount : 2 ^ 31 ≤ countField body) :
    m.m_images = [] := by
  obtain ⟨-, hle, d, dataStart, -, -, hextract⟩ := construct_eq_ok.mp h
  have hlt : countField body < 2 ^ 32 := header_four_lt (by rw [List.length_drop]; omega)
  have hneg : count body < 0 := toInt_ofNat_neg hcount hlt
  have hzero : (count body).toNat = 0 := by omega
  rw [hzero] at hextract
  exact (Except.ok.inj hextract).symm

/-- The format round-trips: decoding what was encoded gives the images back,
and encoding what was decoded gives the front of the body back, the latter if
and only if the count field is below 2^31. -/
theorem round_trip_iff (images : List Image) (body : List Byte) (m : ImageMessage) :
    (framedSize images < 2 ^ 31 →
      construct false (writeAmqpBytes ⟨images⟩ []) = .ok ⟨images⟩) ∧
    (construct false body = .ok m →
      (writeAmqpBytes m [] = body.take (framedSize m.m_images) ↔ countField body < 2 ^ 31)) := by
  constructor
  · intro hsize
    have hlen : images.length < 2 ^ 31 := by
      unfold framedSize at hsize
      omega
    rw [writeAmqpBytes_eq hsize, construct_iff (by rw [countField_layout hlen]; exact hlen)]
    exact ⟨hsize, List.prefix_refl _⟩
  · intro h
    constructor
    · intro hback
      by_contra hge
      -- no images were decoded, so the count that is written back is zero
      have hnil : m = ⟨[]⟩ := by
        cases m
        rw [ImageMessage.mk.injEq]
        exact construct_of_ge h (by omega)
      subst hnil
      rw [writeAmqpBytes_eq (by decide)] at hback
      have hprefix : layout [] <+: body := by
        rw [hback]
        exact List.take_prefix _ _
      have hzero := ((layout_prefix_iff (by decide)).mp hprefix).2.2.1
      rw [List.length_nil] at hzero
      omega
    · intro hcount
      obtain ⟨hsize, hprefix⟩ := (construct_iff hcount).mp h
      rw [writeAmqpBytes_eq hsize, ← length_layout]
      exact List.prefix_iff_eq_take.mp hprefix

theorem round_trip_of_two_images :
    framedSize [[0x0a], []] < 2 ^ 31 ∧
      construct false (writeAmqpBytes ⟨[[0x0a], []]⟩ []) = .ok ⟨[[0x0a], []]⟩ ∧
      construct false [0xfa, 0xce, 0x0f, 0xb0, 0, 0, 0, 1, 0, 0, 0, 1, 0x0a, 0xff] =
        .ok ⟨[[0x0a]]⟩ ∧
      (writeAmqpBytes ⟨[[0x0a]]⟩ [] =
          [0xfa, 0xce, 0x0f, 0xb0, 0, 0, 0, 1, 0, 0, 0, 1, 0x0a, 0xff].take (framedSize [[0x0a]]) ↔
        countField [0xfa, 0xce, 0x0f, 0xb0, 0, 0, 0, 1, 0, 0, 0, 1, 0x0a, 0xff] < 2 ^ 31) :=
  have hboth := round_trip_iff [[0x0a], []]
    [0xfa, 0xce, 0x0f, 0xb0, 0, 0, 0, 1, 0, 0, 0, 1, 0x0a, 0xff] ⟨[[0x0a]]⟩
  ⟨by decide, hboth.1 (by decide), by decide, hboth.2 (by decide)⟩

/-- A body with the count -1 is accepted as a message of no images, whose
encoding is another body. -/
theorem negative_count_is_accepted :
    construct false [0xfa, 0xce, 0x0f, 0xb0, 0xff, 0xff, 0xff, 0xff] = .ok ⟨[]⟩ ∧
      writeAmqpBytes ⟨[]⟩ [] = [0xfa, 0xce, 0x0f, 0xb0, 0, 0, 0, 0] ∧
      writeAmqpBytes ⟨[]⟩ [] ≠
        [0xfa, 0xce, 0x0f, 0xb0, 0xff, 0xff, 0xff, 0xff].take (framedSize []) := by
  decide

/-! ### Staying inside the body -/

/-- The decoder keeps to the body: it refuses the body, or gives a message, and
then every offset it used lay in the body and in an `int`. -/
def StaysInside (body : List Byte) : Prop :=
  construct false body = .error .imageMessageException ∨ ∃ m, construct false body = .ok m

/-- The bodies whose numbers agree with what is there. -/
inductive Bounded (body : List Byte) : Prop where
  | noHeader (h : ¬ (StandsAt (toBE 4 0xface0fb0) 0 body ∧ 8 ≤ body.length))
  | noImages (hlow : -2 ^ 29 ≤ count body) (hhigh : count body ≤ 0)
  | noTable (hlow : 1 ≤ count body) (hhigh : count body ≤ 536870909) (h : body.length < 12)
  | framed (images : List Image) (hsize : framedSize images < 2 ^ 31) (h : layout images <+: body)

/-- Where the first size of the table is inside the body, the loop never stops
at a missing size: an image that was found inside the body stands behind the
whole table. -/
theorem extract_error {body : List Byte} {n i s : Nat} {f : Fault} (hs : s < 2 ^ 31)
    (htable : 8 + 4 * (i + n) ≤ s) (hread : n ≠ 0 → 8 + 4 * (i + 1) ≤ body.length)
    (h : extract body n i s = .error f) : f = .overflow ∨ f = .wildIterator := by
  induction n generalizing i s with
  | zero => cases h
  | succ n ih =>
    have hi : 8 + 4 * i + 4 < 2 ^ 31 := by omega
    have hoffset : int (8 + (i : Int) * 4) = .ok ((8 + 4 * i : Nat) : Int) := by
      have hcast : (8 + (i : Int) * 4) = ((8 + 4 * i : Nat) : Int) := by omega
      rw [hcast, int_of_lt (by omega)]
    have hle : ¬ body.length < 8 + 4 * i + 4 := by
      have := hread (Nat.succ_ne_zero n)
      omega
    rw [extract, hoffset] at h
    simp only [bind_eq_error, Except.ok.injEq, exists_eq_left', read_natCast hi, if_neg hle,
      reduceCtorEq, false_or, pure, Except.pure, exists_false, and_false, or_false] at h
    rcases h with hrange | ⟨image, hrange, hint | ⟨next, hnext, hrest⟩⟩
    · exact .inr (range_error hrange)
    · exact .inl (int_error hint)
    · obtain ⟨-, hfirst, hlast⟩ := range_bounds hrange
      obtain ⟨rfl, -, hlt⟩ := int_eq_ok.mp hnext
      generalize (BitVec.ofNat 32 (header 4 (body.drop (8 + 4 * i)))).toInt = size at *
      lift size to Nat using by omega
      have hcast : (s : Int) + size = ((s + size : Nat) : Int) := by omega
      rw [hcast] at hrest
      refine ih (i := i + 1) (s := s + size) (by omega) (by omega) ?_ ?_
      · intro hn
        omega
      · simpa using hrest

/-- Without the number or a whole header the exception is thrown. -/
theorem construct_noHeader {body : List Byte}
    (h : ¬ (StandsAt (toBE 4 0xface0fb0) 0 body ∧ 8 ≤ body.length)) :
    construct false body = .error .imageMessageException := by
  have hmagic : assertMagic body = .ok () ∨ assertMagic body = .error .imageMessageException := by
    have hread : read body ((0 : Nat) : Int) = _ := read_natCast (by decide)
    rw [Int.ofNat_zero] at hread
    rw [assertMagic, hread]
    split
    · exact .inr rfl
    · simp only [bind, Except.bind]
      split
      · exact .inr rfl
      · exact .inl rfl
  have hread : read body ((4 : Nat) : Int) = _ := read_natCast (by decide)
  rcases hmagic with hok | herror
  · have hshort : body.length < 4 + 4 := by
      by_contra hle
      exact h ⟨assertMagic_iff.mp hok, by omega⟩
    rw [if_pos hshort] at hread
    simp only [construct, Bool.false_eq_true, if_false, hok, bind, Except.bind]
    change read body 4 = _ at hread
    rw [hread]
  · simp [construct, herror, bind, Except.bind]

/-- The constructor behind the header. -/
theorem construct_header {body : List Byte} (hmagic : StandsAt (toBE 4 0xface0fb0) 0 body)
    (hle : 8 ≤ body.length) :
    construct false body = (do
      let dataStart ← int (8 + (← int (4 * count body)))
      return ⟨← extract body (count body).toNat 0 dataStart⟩) := by
  have hread : read body ((4 : Nat) : Int) = _ := read_natCast (by decide)
  rw [if_neg (by omega)] at hread
  change read body 4 = _ at hread
  simp only [construct, Bool.false_eq_true, if_false, assertMagic_iff.mpr hmagic, hread, bind,
    Except.bind]
  rfl

/-- Behind the header, the only way to be refused is a table that is not there. -/
theorem count_of_refused {body : List Byte} (hmagic : StandsAt (toBE 4 0xface0fb0) 0 body)
    (hle : 8 ≤ body.length) (h : construct false body = .error .imageMessageException) :
    -2 ^ 29 ≤ count body ∧ count body ≤ 536870909 ∧ (count body ≤ 0 ∨ body.length < 12) := by
  rw [construct_header hmagic hle] at h
  simp only [bind_eq_error, pure, Except.pure, reduceCtorEq, and_false, exists_false,
    or_false] at h
  rcases h with h | ⟨d, hd, h | ⟨s, hs, h⟩⟩
  · cases int_error h
  · cases int_error h
  · obtain ⟨rfl, hlow, -⟩ := int_eq_ok.mp hd
    obtain ⟨rfl, -, hhigh⟩ := int_eq_ok.mp hs
    refine ⟨by omega, by omega, ?_⟩
    by_contra hlong
    obtain ⟨c, hc⟩ : ∃ c : Nat, count body = c := ⟨(count body).toNat, by omega⟩
    have hcast : (8 : Int) + 4 * (c : Int) = ((8 + 4 * c : Nat) : Int) := by omega
    rw [hc, hcast, Int.toNat_natCast] at h
    rcases extract_error (i := 0) (by omega) (by omega) (fun _ => by omega) h with hf | hf
    · cases hf
    · cases hf

/-- Behind the header, a count whose table is not there is refused. -/
theorem construct_noTable {body : List Byte} (hmagic : StandsAt (toBE 4 0xface0fb0) 0 body)
    (hle : 8 ≤ body.length) (hlow : 1 ≤ count body) (hhigh : count body ≤ 536870909)
    (hshort : body.length < 12) : construct false body = .error .imageMessageException := by
  have hd : int (4 * count body) = .ok (4 * count body) :=
    int_eq_ok.mpr ⟨rfl, by omega, by omega⟩
  have hs : int (8 + 4 * count body) = .ok (8 + 4 * count body) :=
    int_eq_ok.mpr ⟨rfl, by omega, by omega⟩
  have hread : read body ((8 : Nat) : Int) = .error .imageMessageException :=
    (read_natCast (by decide)).trans (if_pos hshort)
  have hoffset : int (8 + 0 * 4) = .ok ((8 : Nat) : Int) := int_of_lt (n := 8) (by decide)
  obtain ⟨c, hc⟩ : ∃ c, (count body).toNat = c + 1 := ⟨(count body).toNat - 1, by omega⟩
  rw [construct_header hmagic hle, hd, hc]
  simp only [bind, Except.bind, hs, extract, hoffset, hread]

/-- Behind the header, a count that is not positive gives no images. -/
theorem construct_noImages {body : List Byte} (hmagic : StandsAt (toBE 4 0xface0fb0) 0 body)
    (hle : 8 ≤ body.length) (hlow : -2 ^ 29 ≤ count body) (hhigh : count body ≤ 0) :
    construct false body = .ok ⟨[]⟩ := by
  have hzero : (count body).toNat = 0 := Int.toNat_of_nonpos hhigh
  have hd : int (4 * count body) = .ok (4 * count body) :=
    int_eq_ok.mpr ⟨rfl, by omega, by omega⟩
  have hs : int (8 + 4 * count body) = .ok (8 + 4 * count body) :=
    int_eq_ok.mpr ⟨rfl, by omega, by omega⟩
  rw [construct_header hmagic hle, hd]
  simp only [bind, Except.bind, hs, hzero]
  rfl

/-- No read leaves the body, and no offset leaves the `int`s, if and only if
the numbers in the body agree with what is there. -/
theorem staysInside_iff (body : List Byte) : StaysInside body ↔ Bounded body := by
  by_cases hheader : StandsAt (toBE 4 0xface0fb0) 0 body ∧ 8 ≤ body.length
  · obtain ⟨hmagic, hle⟩ := hheader
    constructor
    · rintro (herror | ⟨m, hok⟩)
      · obtain ⟨hlow, hhigh, hnone | hshort⟩ := count_of_refused hmagic hle herror
        · exact .noImages hlow hnone
        · by_cases hnone : count body ≤ 0
          · exact .noImages hlow hnone
          · exact .noTable (by omega) hhigh hshort
      · by_cases hcount : countField body < 2 ^ 31
        · obtain ⟨hsize, hprefix⟩ := (construct_iff hcount).mp hok
          exact .framed m.m_images hsize hprefix
        · have hlt32 : countField body < 2 ^ 32 := header_four_lt (by rw [List.length_drop]; omega)
          have hneg : count body < 0 := toInt_ofNat_neg (by omega) hlt32
          obtain ⟨-, -, d, s, hd, -, -⟩ := construct_eq_ok.mp hok
          obtain ⟨-, hlow, -⟩ := int_eq_ok.mp hd
          exact .noImages (by omega) (by omega)
    · intro hbounded
      cases hbounded with
      | noHeader h => exact absurd ⟨hmagic, hle⟩ h
      | noImages hlow hhigh => exact .inr ⟨_, construct_noImages hmagic hle hlow hhigh⟩
      | noTable hlow hhigh hshort =>
        exact .inl (construct_noTable hmagic hle hlow hhigh hshort)
      | framed images hsize hprefix =>
        have hlen : images.length < 2 ^ 31 := by
          unfold framedSize at hsize
          omega
        have hcount : countField body = images.length := ((layout_prefix_iff hlen).mp hprefix).2.2.1
        exact .inr ⟨⟨images⟩, (construct_iff (by omega)).mpr ⟨hsize, hprefix⟩⟩
  · constructor
    · intro _
      exact .noHeader hheader
    · intro _
      exact .inl (construct_noHeader hheader)

/-- A size of 5 with no image behind the table sends the decoder five bytes
past the end of the body. -/
theorem size_beyond_body :
    construct false [0xfa, 0xce, 0x0f, 0xb0, 0, 0, 0, 1, 0, 0, 0, 5] = .error .wildIterator ∧
      ¬ StaysInside [0xfa, 0xce, 0x0f, 0xb0, 0, 0, 0, 1, 0, 0, 0, 5] := by
  have hwild : construct false [0xfa, 0xce, 0x0f, 0xb0, 0, 0, 0, 1, 0, 0, 0, 5] =
      .error .wildIterator := by decide
  refine ⟨hwild, ?_⟩
  rintro (h | ⟨m, h⟩)
  · rw [hwild] at h
    cases h
  · rw [hwild] at h
    cases h

end ImageMessage

end Sogx
