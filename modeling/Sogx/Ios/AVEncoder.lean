import Sogx.Ios.MovieFile

/-!
`AVEncoder.mm`: taking the NAL units out of the files of the video writer while
it still records them.

`onFileUpdate` looks for the `mdat` atom and hands over the whole units behind
it, `encodeFrame` starts the next file when one gets too long, and `swapFiles`
reads what is left of the finished one.

* `readAndDeliver_eq`: a call hands over the units that lie whole in the bytes
  it may read, and stops in front of the first that does not.
* `readAndDeliver_whole_iff`: of the sizes that a length field may have, only four
  bytes are read as they are meant.
* `onFileUpdate_spec`: wherever the file is cut, the reader goes on to a
  position from which it has handed over the units before it (`Extracting`).
* `swapFiles_spec`: with the `mdat` found, the rest of a finished file is handed
  over.
-/

namespace Sogx

open Sogx.Lib Sogx.Lib.Records Sogx.MovieFile

/-- `none` stands for reading behind the end of the buffer. -/
def to_host : List Byte → Option (BitVec 32)
  | p0 :: p1 :: p2 :: p3 :: _ =>
    some ((p0.setWidth 32 <<< 24) + (p1.setWidth 32 <<< 16) + (p2.setWidth 32 <<< 8) +
      p3.setWidth 32)
  | _ => none

def OUTPUT_FILE_SWITCH_POINT : Nat := 50 * 1024 * 1024

def MAX_FILENAME_INDEX : Nat := 5

/-- A cancelled source may still run a handler, until the block behind it on the
queue releases it. -/
inductive ReadSource where
  | resumed | cancelled | released
deriving DecidableEq, Repr

/-- The encoder while it extracts. `next` is the file of the new writer while
`_swapping`, `closed` what the files held that `swapFiles` has closed, and
`delivered` the arguments of `onNALU`. -/
structure AVEncoder where
  inputFile : File
  offsetInFile : Nat
  readSource : ReadSource
  lengthSize : Nat
  lengthSize_pos : 0 < lengthSize
  foundMDAT : Bool
  posMDAT : Nat
  bytesToNextAtom : Int
  next : Option File
  closed : List Output
  delivered : List (List Byte)

namespace AVEncoder

/-- `readAndDeliver:`, with the offset behind it and the units handed over. -/
def readAndDeliver (content : List Byte) (lengthSize : Nat) (hsize : 0 < lengthSize)
    (cReady offset : Nat) : Option (Nat × List (List Byte)) :=
  if _h : lengthSize < cReady then
    let lenField := (content.drop offset).take lengthSize
    match to_host lenField with
    | none => none
    | some lenNALU =>
      if cReady - lengthSize < lenNALU.toNat then some (offset + lenField.length - 4, [])
      else
        let nalu := (content.drop (offset + lenField.length)).take lenNALU.toNat
        (readAndDeliver content lengthSize hsize (cReady - lengthSize - lenNALU.toNat)
          (offset + lenField.length + nalu.length)).map fun rest => (rest.1, nalu :: rest.2)
  else some (offset, [])
termination_by cReady

/-- The variables of the loop that looks for the `mdat`. -/
structure Locating where
  foundMDAT : Bool
  posMDAT : Nat
  bytesToNextAtom : Int
  offset : Nat
  cReady : Int

/-- The first `if` of the loop body; `none` also stands for the overflow of an `int`. -/
def readHeader (content : List Byte) (l : Locating) : Option Locating := do
  let hdr := (content.drop l.offset).take 8
  let lenAtom ← to_host hdr
  let nameAtom ← to_host (hdr.drop 4)
  let l := { l with offset := l.offset + hdr.length, cReady := l.cReady - 8 }
  if nameAtom = mdat then
    some { l with foundMDAT := true, posMDAT := l.offset - 8 }
  else if lenAtom.toInt - 8 < -2 ^ 31 then none
  else some { l with bytesToNextAtom := lenAtom.toInt - 8 }

/-- The second `if` of the loop body. -/
def skipAtom (l : Locating) : Locating :=
  if 0 < l.bytesToNextAtom then
    let cThis := if l.cReady < l.bytesToNextAtom then l.cReady else l.bytesToNextAtom
    { l with
      bytesToNextAtom := l.bytesToNextAtom - cThis
      offset := l.offset + cThis.toNat
      cReady := l.cReady - cThis }
  else l

def loopBody (content : List Byte) (l : Locating) : Option Locating :=
  if l.bytesToNextAtom = 0 then (readHeader content l).map skipAtom else some (skipAtom l)

theorem readHeader_cReady {content : List Byte} {l l' : Locating}
    (h : readHeader content l = some l') : l'.cReady = l.cReady - 8 := by
  unfold readHeader at h
  simp only [Option.bind_eq_bind, Option.bind_eq_some_iff] at h
  obtain ⟨lenAtom, -, nameAtom, -, h⟩ := h
  split at h
  · cases h
    rfl
  split at h
  · cases h
  · cases h
    rfl

/-- Skipping an atom never makes more bytes ready. -/
theorem skipAtom_cReady_le {l : Locating} (h : 0 ≤ l.cReady) :
    (skipAtom l).cReady ≤ l.cReady := by
  unfold skipAtom
  dsimp only
  split
  · split <;> dsimp only <;> omega
  · exact le_rfl

/-- Each turn of the search leaves fewer bytes that are ready. -/
theorem loopBody_lt {content : List Byte} {l l' : Locating} (hready : 8 < l.cReady)
    (hbytes : 0 ≤ l.bytesToNextAtom) (h : loopBody content l = some l') :
    l'.cReady < l.cReady := by
  unfold loopBody at h
  split at h
  · obtain ⟨header, hheader, rfl⟩ := Option.map_eq_some_iff.mp h
    have hread := readHeader_cReady hheader
    have hskip := skipAtom_cReady_le (l := header) (by omega)
    omega
  · cases h
    have hpos : 0 < l.bytesToNextAtom := by omega
    rw [skipAtom, if_pos hpos]
    dsimp only
    split <;> omega

/-- The loop. With a negative `_bytesToNextAtom` it runs forever. -/
def locate (content : List Byte) (l : Locating) : Option Locating :=
  if _h : l.foundMDAT = false ∧ 8 < l.cReady then
    if _hbytes : l.bytesToNextAtom < 0 then none
    else
      match _hbody : loopBody content l with
      | none => none
      | some l' => locate content l'
  else some l
termination_by l.cReady.toNat
decreasing_by
  have hlt := loopBody_lt _h.2 (Int.not_lt.mp _hbytes) _hbody
  omega

def onFileUpdate (s : AVEncoder) : Option AVEncoder := do
  let content := s.inputFile.content
  let cReady := (BitVec.ofInt 32 ((content.length : Int) - s.offsetInFile)).toInt
  let l ← locate content ⟨s.foundMDAT, s.posMDAT, s.bytesToNextAtom, s.offsetInFile, cReady⟩
  let s := { s with
    foundMDAT := l.foundMDAT
    posMDAT := l.posMDAT
    bytesToNextAtom := l.bytesToNextAtom
    offsetInFile := l.offset }
  if l.foundMDAT = false then some s
  else
    let read ← readAndDeliver content s.lengthSize s.lengthSize_pos
      (BitVec.ofInt 32 l.cReady).toNat l.offset
    some { s with offsetInFile := read.1, delivered := s.delivered ++ read.2 }

/-- `swapFiles:`. The position arithmetic is modulo 2^64, of which 32 bits are kept. -/
def swapFiles (newFile : File) (s : AVEncoder) : Option AVEncoder := do
  let content := s.inputFile.content
  let lenMDAT ← to_host ((content.drop s.posMDAT).take 4)
  let posEnd := (s.posMDAT : Int) + lenMDAT.toInt
  let cRead := BitVec.ofInt 32 (posEnd - s.offsetInFile)
  let read ← readAndDeliver content s.lengthSize s.lengthSize_pos cRead.toNat s.offsetInFile
  some { s with
    inputFile := newFile
    offsetInFile := 0
    readSource := .resumed
    foundMDAT := false
    bytesToNextAtom := 0
    next := none
    closed := s.closed ++ [s.inputFile.output]
    delivered := s.delivered ++ read.2 }

def nextNumber (currentFile : Nat) : Nat :=
  if MAX_FILENAME_INDEX < currentFile + 1 then 1 else currentFile + 1

/-- The part of `encodeFrame:` that starts the next file; `output` is what the
new writer will have put into it. -/
def encodeFrame (output : Output) (s : AVEncoder) : AVEncoder :=
  match s.next with
  | some _ => s
  | none =>
    if OUTPUT_FILE_SWITCH_POINT < s.inputFile.content.length then
      { s with
        next := some ⟨nextNumber s.inputFile.number, output, 0, 0, false⟩
        readSource := .cancelled }
    else s

/-- `onParamsCompletion`: extraction starts with the file that was recorded
since the first frame. -/
def onParamsCompletion (lengthSize : Nat) (hsize : 0 < lengthSize) (output : Output)
    (visible : Nat) (size : BitVec 32) : AVEncoder where
  inputFile := ⟨1, output, visible, size, false⟩
  offsetInFile := 0
  readSource := .resumed
  lengthSize := lengthSize
  lengthSize_pos := hsize
  foundMDAT := false
  posMDAT := 0
  bytesToNextAtom := 0
  next := none
  closed := []
  delivered := []

/-! ### One call of `readAndDeliver` -/

/-- Four bytes in network order are read as the word that they are. -/
theorem to_host_toBE (n : Nat) (rest : List Byte) :
    to_host (toBE 4 n ++ rest) = some (BitVec.ofNat 32 n) := by
  have hback : BitVec.ofNat 32 (ofBE (toBE 4 n)) = BitVec.ofNat 32 n := by
    rw [ofBE_toBE]
    apply BitVec.eq_of_toNat_eq
    simp
  rw [← hback]
  exact congrArg some (word_of_bytes _ _ _ _)

/-- A length field that stands at an offset is read there. -/
theorem to_host_standsAt {content : List Byte} {n k : Nat} (h : StandsAt (toBE 4 n) k content) :
    to_host ((content.drop k).take 4) = some (BitVec.ofNat 32 n) := by
  rw [(standsAt_iff_take (length_toBE 4 n)).mp h]
  simpa using to_host_toBE n []

/-- The reader gives the units that are whole in what is ready, and stops behind them. -/
theorem readAndDeliver_eq {content : List Byte} {rest : List (List Byte)} {cReady offset : Nat}
    (hrest : ∀ nalu ∈ rest, Fits 4 nalu) (hready : cReady ≤ (encode 4 rest).length)
    (hstands : StandsAt ((encode 4 rest).take cReady) offset content) (hsize : 0 < 4) :
    readAndDeliver content 4 hsize cReady offset =
      some (offset + (encode 4 (whole 4 rest cReady)).length, whole 4 rest cReady) := by
  induction rest generalizing cReady offset with
  | nil =>
    have hnone : cReady = 0 := Nat.le_zero.mp hready
    rw [readAndDeliver, dif_neg (by omega)]
    rfl
  | cons nalu rest ih =>
    obtain ⟨hne, hfits⟩ := hrest nalu (by simp)
    have hpos := List.length_pos_iff.mpr hne
    by_cases hfield : 4 < cReady
    · rw [encode_cons, frame, List.append_assoc,
        standsAt_take_append (by rw [length_toBE]; omega), length_toBE] at hstands
      obtain ⟨hlength, hbehind⟩ := hstands
      have hnalu : (BitVec.ofNat 32 nalu.length).toNat = nalu.length :=
        Nat.mod_eq_of_lt hfits
      have hlen : ((content.drop offset).take 4).length = 4 := by
        rw [(standsAt_iff_take (length_toBE 4 _)).mp hlength, length_toBE]
      rw [readAndDeliver, dif_pos hfield]
      simp only [to_host_standsAt hlength, hnalu, hlen]
      by_cases hwhole : nalu.length ≤ cReady - 4
      · rw [standsAt_take_append hwhole] at hbehind
        obtain ⟨hhere, hthere⟩ := hbehind
        rw [if_neg (Nat.not_lt.mpr hwhole), hhere.take,
          ih (fun n hn => hrest n (List.mem_cons_of_mem _ hn)) _ hthere, whole, if_pos (by omega)]
        · simp only [Option.map_some, encode_cons, List.length_append, length_frame, Nat.sub_sub]
          rw [Nat.add_assoc, Nat.add_assoc, Nat.add_assoc]
        · rw [encode_cons, List.length_append, length_frame] at hready
          omega
      · rw [if_pos (Nat.not_le.mp hwhole), whole, if_neg (by omega)]
        rfl
    · rw [readAndDeliver, dif_neg hfield, whole, if_neg (by omega)]
      rfl

/-! ### Length fields of every size -/

/-- What the low bits of the fifth byte of an `avcC` record say. -/
def lengthSizeOf (p : Byte) : Nat := (p &&& 3).toNat + 1

theorem lengthSizeOf_le (p : Byte) : lengthSizeOf p ≤ 4 := by
  have hand : (p &&& 3).toNat ≤ 3 := Nat.and_le_right
  exact Nat.succ_le_succ hand

theorem length_of_to_host {p : List Byte} {word : BitVec 32} (h : to_host p = some word) :
    4 ≤ p.length := by
  match p, h with
  | p0 :: p1 :: p2 :: p3 :: rest, _ => simp

/-- A length field of less than four bytes is read behind its end. -/
theorem readAndDeliver_short {content : List Byte} {lengthSize cReady offset : Nat}
    (hsize : 0 < lengthSize) (hshort : lengthSize < 4) (hready : lengthSize < cReady) :
    readAndDeliver content lengthSize hsize cReady offset = none := by
  have hfield : to_host ((content.drop offset).take lengthSize) = none := by
    rw [Option.eq_none_iff_forall_ne_some]
    intro word hword
    have hlong := length_of_to_host hword
    have hle := List.length_take_le lengthSize (content.drop offset)
    omega
  rw [readAndDeliver, dif_pos hready]
  simp only [hfield]

/-- No unit lies whole in the bytes of a length field. -/
theorem whole_of_le_field {w k : Nat} {nalus : List (List Byte)}
    (hfits : ∀ nalu ∈ nalus, Fits w nalu) (hk : k ≤ w) : whole w nalus k = [] := by
  cases nalus with
  | nil => rfl
  | cons nalu nalus =>
    have hpos := List.length_pos_iff.mpr (hfits nalu List.mem_cons_self).1
    rw [whole, if_neg (by omega)]

/-- From the bytes that hold the front of a stream, the units that lie whole in
them are handed over, if and only if the length fields are of four bytes, or
there is no more than one of them. -/
theorem readAndDeliver_whole_iff {p : Byte} {lengthSize : Nat}
    (hlengthSize : lengthSize = lengthSizeOf p) (hsize : 0 < lengthSize) {nalus : List (List Byte)}
    (hfits : ∀ nalu ∈ nalus, Fits lengthSize nalu) {cReady : BitVec 32}
    (hready : cReady.toNat ≤ (encode lengthSize nalus).length) {content : List Byte} {offset : Nat}
    (hstands : StandsAt ((encode lengthSize nalus).take cReady.toNat) offset content) :
    readAndDeliver content lengthSize hsize cReady.toNat offset =
        some (offset + (encode lengthSize (whole lengthSize nalus cReady.toNat)).length,
          whole lengthSize nalus cReady.toNat) ↔
      lengthSize = 4 ∨ cReady.toNat ≤ lengthSize := by
  have hle : lengthSize ≤ 4 := hlengthSize ▸ lengthSizeOf_le p
  constructor
  · intro h
    by_contra hnot
    rw [not_or, not_le] at hnot
    rw [readAndDeliver_short hsize (Nat.lt_of_le_of_ne hle hnot.1) hnot.2] at h
    cases h
  · rintro (rfl | hfew)
    · exact readAndDeliver_eq hfits hready hstands hsize
    · rw [whole_of_le_field hfits hfew, readAndDeliver, dif_neg (Nat.not_lt.mpr hfew)]
      rfl

/-- Two units of which the second is cut. -/
theorem readAndDeliver_whole_iff_of_cut :
    readAndDeliver [0, 0, 0, 1, 9, 0, 0, 0, 2, 0x65] 4 (by decide) 10 0 = some (5, [[9]]) ↔
      4 = 4 ∨ 10 ≤ 4 := by
  have hfits : ∀ nalu ∈ ([[9], [0x65, 0x88]] : List (List Byte)), Fits 4 nalu := by decide
  have hready : (10#32).toNat ≤ (encode 4 [[9], [0x65, 0x88]]).length := by decide
  have hstands : StandsAt ((encode 4 [[9], [0x65, 0x88]]).take (10#32).toNat) 0
      [0, 0, 0, 1, 9, 0, 0, 0, 2, 0x65] := by decide
  exact readAndDeliver_whole_iff (p := 3) rfl (by decide) hfits hready hstands

/-- A unit of one byte behind its length of two bytes. -/
theorem two_byte_field_not_read :
    readAndDeliver [0, 1, 0x65] (lengthSizeOf 1) (by decide) 3 0 ≠
      some ((encode (lengthSizeOf 1) (whole (lengthSizeOf 1) [[0x65]] 3)).length,
        whole (lengthSizeOf 1) [[0x65]] 3) := by
  rw [readAndDeliver_short (by decide) (by decide) (by decide)]
  exact (Option.some_ne_none _).symm

/-! ### Where the reader is in a file -/

/-- The state of the reader in a file that will hold `o`, with the units handed
over so far. A reader that is `lost` behind an oversized atom has found nothing
and finds nothing any more. -/
inductive Position (o : Output) : Bool → Nat → Int → Nat → List (List Byte) → Prop where
  | lost {pos offset : Nat} {bytes : Int} :
      bytes < 0 → Oversized o → Position o false pos bytes offset []
  | searching {pos offset : Nat} {bytes : Int} (skipped rest : List Atom) :
      o.atoms = skipped ++ rest → 0 ≤ bytes → offset + bytes = (atomsBytes skipped).length →
      Position o false pos bytes offset []
  | extracting {offset : Nat} (given rest : List (List Byte)) :
      o.nalus = given ++ rest →
      offset = (atomsBytes o.atoms).length + 8 + (encode 4 given).length →
      Position o true (atomsBytes o.atoms).length 0 offset given

/-- A negative count of bytes comes from an atom of 2 GiB or more only. -/
theorem Position.oversized {o : Output} {found : Bool} {pos offset : Nat} {bytes : Int}
    {given : List (List Byte)} (h : Position o found pos bytes offset given) (hbytes : bytes < 0) :
    Oversized o := by
  cases h with
  | lost _ hover => exact hover
  | searching skipped rest _ hnonneg _ => exact absurd hbytes (Int.not_lt.mpr hnonneg)
  | extracting given rest _ _ => exact absurd hbytes (Int.lt_irrefl 0)

theorem Position.given_first {o : Output} {found : Bool} {pos offset : Nat} {bytes : Int}
    {given : List (List Byte)} (h : Position o found pos bytes offset given) :
    given <+: o.nalus := by
  cases h with
  | lost => exact List.nil_prefix
  | searching => exact List.nil_prefix
  | extracting given rest hnalus _ => exact ⟨rest, hnalus.symm⟩

/-- A reader that has not found the `mdat` is not behind its front. -/
theorem Position.before_mdat {o : Output} {pos offset : Nat} {bytes : Int}
    {given : List (List Byte)} (h : Position o false pos bytes offset given)
    (hshort : ¬ Oversized o) : offset ≤ (atomsBytes o.atoms).length := by
  cases h with
  | lost _ hover => exact absurd hover hshort
  | searching skipped rest hatoms hnonneg hnext =>
    have hskipped : (atomsBytes skipped).length ≤ (atomsBytes o.atoms).length := by
      rw [hatoms, atomsBytes, atomsBytes, List.flatMap_append, List.length_append]
      exact Nat.le_add_right _ _
    omega

theorem Position.given_nil {o : Output} {pos offset : Nat} {bytes : Int}
    {given : List (List Byte)} (h : Position o false pos bytes offset given) : given = [] := by
  cases h with
  | lost => rfl
  | searching => rfl

/-- Once it is found, the reader stands behind the units that it gave. -/
theorem Position.found {o : Output} {pos offset : Nat} {bytes : Int} {given : List (List Byte)}
    (h : Position o true pos bytes offset given) :
    ∃ rest, o.nalus = given ++ rest ∧ pos = (atomsBytes o.atoms).length ∧
      offset = (atomsBytes o.atoms).length + 8 + (encode 4 given).length := by
  cases h with
  | extracting given rest hnalus hoffset => exact ⟨rest, hnalus, rfl, hoffset⟩

/-! ### Looking for the `mdat` -/

/-- The reader stands in front of a header, which the file holds already. -/
theorem readHeader_eq {content : List Byte} {l : Locating} {length : Nat} {name : BitVec 32}
    (h : StandsAt (atomHeader length name) l.offset content) :
    readHeader content l =
      if name = mdat then
        some { l with
          foundMDAT := true, posMDAT := l.offset, offset := l.offset + 8, cReady := l.cReady - 8 }
      else if (BitVec.ofNat 32 length).toInt - 8 < -2 ^ 31 then none
      else some { l with
        bytesToNextAtom := (BitVec.ofNat 32 length).toInt - 8
        offset := l.offset + 8
        cReady := l.cReady - 8 } := by
  have hhdr : (content.drop l.offset).take 8 = atomHeader length name :=
    (standsAt_iff_take (length_atomHeader length name)).mp h
  have hname : to_host ((atomHeader length name).drop 4) = some name := by
    have hdrop : (atomHeader length name).drop 4 = toBE 4 name.toNat := by
      rw [atomHeader, List.drop_left' (length_toBE 4 length)]
    rw [hdrop]
    simpa using to_host_toBE name.toNat []
  unfold readHeader
  simp only [hhdr, hname, length_atomHeader]
  rw [atomHeader, to_host_toBE]
  simp

/-- What a turn of the loop keeps: it reads nothing that it does not count. -/
structure Keeps (l l' : Locating) : Prop where
  ready : (l'.offset : Int) + l'.cReady = l.offset + l.cReady
  nonneg : 0 ≤ l'.cReady

def Locating.At (o : Output) (l : Locating) : Prop :=
  Position o l.foundMDAT l.posMDAT l.bytesToNextAtom l.offset []

theorem skipAtom_keeps {l : Locating} (hready : 0 ≤ l.cReady) : Keeps l (skipAtom l) := by
  unfold skipAtom
  split
  · dsimp only
    split
    · constructor <;> dsimp only <;> omega
    · constructor <;> dsimp only <;> omega
  · exact ⟨rfl, hready⟩

/-- Skipping an atom leads to the next atom, or is continued when there is more. -/
theorem skipAtom_at {o : Output} {l : Locating} (hready : 0 ≤ l.cReady) (h : l.At o) :
    (skipAtom l).At o := by
  by_cases hskip : 0 < l.bytesToNextAtom
  · obtain ⟨found, pos, bytes, offset, cReady⟩ := l
    cases h with
    | lost hlost _ => exact absurd hskip (Int.not_lt.mpr (Int.le_of_lt hlost))
    | searching skipped rest hatoms _ hnext =>
      dsimp only at hready hskip hnext
      have hkept := skipAtom_keeps (l := ⟨false, pos, bytes, offset, cReady⟩) hready
      unfold skipAtom at hkept ⊢
      rw [if_pos hskip] at hkept ⊢
      refine .searching skipped rest hatoms ?_ ?_
      · dsimp only
        split <;> omega
      · dsimp only
        split <;> omega
    | extracting given rest hnalus hoffset => exact absurd hskip (Int.lt_irrefl 0)
  · rwa [skipAtom, if_neg hskip]

/-- The search makes a turn while the atom is not found and there is a header. -/
theorem locate_turn {content : List Byte} {l : Locating} (hfound : l.foundMDAT = false)
    (hready : 8 < l.cReady) (hbytes : 0 ≤ l.bytesToNextAtom) :
    locate content l = (loopBody content l).bind (locate content) := by
  rw [locate, dif_pos ⟨hfound, hready⟩, dif_neg (Int.not_lt.mpr hbytes)]
  split
  · rename_i hbody
    rw [hbody, Option.bind_none]
  · rename_i hbody
    rw [hbody, Option.bind_some]

theorem locate_done {content : List Byte} {l : Locating}
    (h : ¬(l.foundMDAT = false ∧ 8 < l.cReady)) : locate content l = some l := by
  rw [locate, dif_neg h]

section Recording

-- A file that is being written, of which `content` is there.
variable {o : Output} {size : Nat} {content : List Byte}
  (hcontent : ∀ p k, StandsAt p k (o.layout size) → k + p.length ≤ content.length →
    StandsAt p k content)
include hcontent

/-- Reading a header either goes on to the next atom, or finds the `mdat`, or
fails at an oversized atom. -/
theorem readHeader_spec {l : Locating} (hat : l.At o) (hfound : l.foundMDAT = false)
    (hbytes : l.bytesToNextAtom = 0) (hinside : l.offset + 8 ≤ content.length) :
    (∃ l', readHeader content l = some l' ∧ l'.At o ∧ l'.offset = l.offset + 8 ∧
      l'.cReady = l.cReady - 8) ∨ (readHeader content l = none ∧ Oversized o) := by
  obtain ⟨found, pos, bytes, offset, cReady⟩ := l
  cases hat with
  | lost hlost _ => exact absurd hbytes (Int.ne_of_lt hlost)
  | extracting given rest hnalus hoffset => cases hfound
  | searching skipped rest hatoms _ hnext =>
    dsimp only at hbytes hnext hinside
    have hoffset : offset = (atomsBytes skipped).length := by omega
    cases rest with
    | nil =>
      rw [List.append_nil] at hatoms
      have hhere : StandsAt (atomHeader size mdat) offset content := by
        refine hcontent _ _ ?_ (by rwa [length_atomHeader])
        rw [hoffset, ← hatoms]
        exact layout_mdat o size
      have hfirst : Position o true offset 0 (offset + 8) [] := by
        rw [hoffset, ← hatoms]
        exact .extracting [] o.nalus rfl rfl
      left
      exact ⟨_, (readHeader_eq hhere).trans (if_pos rfl), hbytes ▸ hfirst, rfl, rfl⟩
    | cons a rest =>
      have hhere : StandsAt (atomHeader (8 + a.body.length) a.name) offset content := by
        refine hcontent _ _ ?_ (by rwa [length_atomHeader])
        rw [hoffset]
        exact layout_next_atom hatoms
      rw [readHeader_eq hhere, if_neg a.name_ne]
      by_cases hshort : 8 + a.body.length < 2 ^ 31
      · have hlength := toInt_ofNat_of_lt hshort
        have hnext : (atomsBytes (skipped ++ [a])).length = offset + 8 + a.body.length := by
          rw [length_atomsBytes_snoc, hoffset, Nat.add_assoc]
        left
        refine ⟨_, if_neg (by omega), ?_, rfl, rfl⟩
        refine .searching (skipped ++ [a]) rest (by simp [hatoms]) ?_ ?_
        · dsimp only
          omega
        · dsimp only
          omega
      · have hlost := toInt_ofNat_neg (Nat.not_lt.mp hshort) a.fits
        have hover : Oversized o := ⟨a, by simp [hatoms], Nat.not_lt.mp hshort⟩
        split
        · exact .inr ⟨rfl, hover⟩
        · left
          refine ⟨_, rfl, .lost ?_ hover, rfl, rfl⟩
          dsimp only
          omega

/-- A turn goes on to another place in the output, or an atom is too large. -/
theorem loopBody_spec {l : Locating} (hat : l.At o) (hfound : l.foundMDAT = false)
    (hready : 8 < l.cReady) (hinside : l.offset + l.cReady ≤ content.length) :
    (∃ l', loopBody content l = some l' ∧ l'.At o ∧ Keeps l l') ∨
      (loopBody content l = none ∧ Oversized o) := by
  unfold loopBody
  by_cases hbytes : l.bytesToNextAtom = 0
  · rw [if_pos hbytes]
    rcases readHeader_spec hcontent hat hfound hbytes (by omega) with
      ⟨header, hread, hheader, hoffset, hcReady⟩ | ⟨hread, hover⟩
    · have hkept := skipAtom_keeps (l := header) (by omega)
      left
      refine ⟨skipAtom header, by rw [hread, Option.map_some],
        skipAtom_at (by omega) hheader, ?_, hkept.nonneg⟩
      have hready := hkept.ready
      omega
    · right
      exact ⟨by rw [hread, Option.map_none], hover⟩
  · rw [if_neg hbytes]
    left
    exact ⟨_, rfl, skipAtom_at (by omega) hat, skipAtom_keeps (by omega)⟩

/-- The loop ends with the `mdat` found or too little left to go on, unless
there is an oversized atom. -/
theorem locate_spec {l : Locating} (hat : l.At o) (hfound : l.foundMDAT = false)
    (hoffset : l.offset ≤ content.length) (hinside : l.offset + l.cReady ≤ content.length) :
    (∃ l', locate content l = some l' ∧ l'.At o ∧ l'.offset ≤ content.length ∧
      l'.offset + l'.cReady = l.offset + l.cReady ∧ (l'.foundMDAT = true → 0 ≤ l'.cReady) ∧
      (l'.foundMDAT = false → l'.cReady ≤ 8)) ∨
      (locate content l = none ∧ Oversized o) := by
  by_cases hrun : l.foundMDAT = false ∧ 8 < l.cReady
  · by_cases hbytes : l.bytesToNextAtom < 0
    · rw [locate, dif_pos hrun, dif_pos hbytes]
      exact .inr ⟨rfl, hat.oversized hbytes⟩
    · rw [locate_turn hfound hrun.2 (Int.not_lt.mp hbytes)]
      rcases loopBody_spec hcontent hat hfound hrun.2 hinside with
        ⟨l₁, hbody, hat₁, hkeeps⟩ | ⟨hbody, hover⟩
      · have hlt := loopBody_lt hrun.2 (Int.not_lt.mp hbytes) hbody
        have hready := hkeeps.ready
        have hnonneg := hkeeps.nonneg
        rw [hbody, Option.bind_some]
        cases hfound₁ : l₁.foundMDAT with
        | true =>
          left
          refine ⟨l₁, locate_done (by simp [hfound₁]), hat₁, by omega, hready, fun _ => hnonneg, ?_⟩
          intro hnot
          rw [hfound₁] at hnot
          cases hnot
        | false =>
          have hrest := locate_spec hat₁ hfound₁ (by omega) (by omega)
          rwa [hready] at hrest
      · rw [hbody, Option.bind_none]
        exact .inr ⟨rfl, hover⟩
  · left
    refine ⟨l, locate_done hrun, hat, hoffset, rfl, ?_, ?_⟩
    · intro hfound'
      rw [hfound] at hfound'
      cases hfound'
    · intro hnot
      exact Int.not_lt.mp fun hmore => hrun ⟨hnot, hmore⟩
termination_by l.cReady.toNat
decreasing_by omega

/-- Handing over units: the reader goes on behind them. -/
theorem readAndDeliver_spec {given : List (List Byte)} {pos offset cReady : Nat} {bytes : Int}
    (hlayout : content.length ≤ (o.layout size).length)
    (hpos : Position o true pos bytes offset given) (hinside : offset + cReady ≤ content.length)
    (hsize : 0 < 4) :
    ∃ more, readAndDeliver content 4 hsize cReady offset =
        some (offset + (encode 4 more).length, more) ∧
      Position o true pos bytes (offset + (encode 4 more).length) (given ++ more) ∧
      offset + (encode 4 more).length ≤ content.length := by
  cases hpos with
  | extracting given rest hnalus hoffset =>
    have hfits := nalus_fit o
    have hready : cReady ≤ (encode 4 rest).length := by
      rw [length_layout, hnalus, encode_append, List.length_append] at hlayout
      omega
    have hstands : StandsAt ((encode 4 rest).take cReady) offset content := by
      refine hcontent _ _ ?_ ?_
      · rw [hoffset]
        exact (List.take_prefix _ _).trans (layout_nalus hnalus)
      · rw [List.length_take_of_le hready]
        exact hinside
    have hrest : ∀ nalu ∈ rest, Fits 4 nalu := fun nalu hmem =>
      hfits nalu (by rw [hnalus]; exact List.mem_append_right _ hmem)
    have hshort := encode_whole_le (w := 4) rest cReady
    obtain ⟨later, hlater⟩ := whole_prefix (w := 4) rest cReady
    refine ⟨whole 4 rest cReady, readAndDeliver_eq hrest hready hstands hsize, ?_, by omega⟩
    refine .extracting _ later ?_ ?_
    · rw [hnalus, List.append_assoc, hlater]
    · rw [hoffset, encode_append, List.length_append, Nat.add_assoc]

end Recording

/-! ### A call of `onFileUpdate` -/

theorem ofInt_sub {m n : Nat} (h : m ≤ n) :
    BitVec.ofInt 32 ((n : Int) - m) = BitVec.ofNat 32 (n - m) := by
  rw [← Int.ofNat_sub h]
  exact BitVec.ofInt_natCast 32 (n - m)

theorem toInt_ofNat_le (n : Nat) : (BitVec.ofNat 32 n).toInt ≤ n := by
  have hmod : (BitVec.ofNat 32 n).toNat ≤ n := Nat.mod_le _ _
  rw [BitVec.toInt_eq_toNat_cond]
  split
  · exact Int.ofNat_le.mpr hmod
  · omega

theorem toNat_ofInt_le {i : Int} (h : 0 ≤ i) : ((BitVec.ofInt 32 i).toNat : Int) ≤ i := by
  obtain ⟨n, rfl⟩ := Int.eq_ofNat_of_zero_le h
  rw [BitVec.ofInt_natCast]
  exact Int.ofNat_le.mpr (Nat.mod_le _ _)

/-- A reader that has handed over, in order, the units of the files that it left
and the first ones of the file it reads. -/
structure Extracting (s : AVEncoder) : Prop where
  lengthSize : s.lengthSize = 4
  offset : s.offsetInFile ≤ s.inputFile.content.length
  reading : ∃ given, Position s.inputFile.output s.foundMDAT s.posMDAT s.bytesToNextAtom
    s.offsetInFile given ∧ s.delivered = s.closed.flatMap (·.nalus) ++ given
  finished : s.inputFile.finished = true → s.readSource = .released
  idle : s.next = none → s.readSource = .resumed
  next : ∀ f, s.next = some f → f.finished = false ∧ f.number ≠ s.inputFile.number

/-- What a call of `onFileUpdate` may change. -/
structure Updated (s s' : AVEncoder) : Prop where
  inputFile : s'.inputFile = s.inputFile
  readSource : s'.readSource = s.readSource
  lengthSize : s'.lengthSize = s.lengthSize
  next : s'.next = s.next
  closed : s'.closed = s.closed
  delivered : s.delivered <+: s'.delivered

/-- Four is the one size of lengths in the files of this encoder. -/
theorem readAndDeliver_four {content : List Byte} {lengthSize : Nat} (h : lengthSize = 4)
    (hsize : 0 < lengthSize) :
    readAndDeliver content lengthSize hsize = readAndDeliver content 4 (by decide) := by
  subst h
  rfl

/-- The second half of the call, with the `mdat` found. -/
theorem onFileUpdate_found {s : AVEncoder} (h : Extracting s)
    (hrecording : s.inputFile.finished = false) {given : List (List Byte)} {l : Locating}
    (hdelivered : s.delivered = s.closed.flatMap (·.nalus) ++ given)
    (hfound : l.foundMDAT = true)
    (hpos : Position s.inputFile.output l.foundMDAT l.posMDAT l.bytesToNextAtom l.offset given)
    (hinside : l.offset + (BitVec.ofInt 32 l.cReady).toNat ≤ s.inputFile.content.length)
    (hlocate : locate s.inputFile.content ⟨s.foundMDAT, s.posMDAT, s.bytesToNextAtom,
      s.offsetInFile, (BitVec.ofInt 32 ((s.inputFile.content.length : Int) -
        s.offsetInFile)).toInt⟩ = some l) :
    ∃ s', s.onFileUpdate = some s' ∧ Extracting s' ∧ Updated s s' ∧ s'.foundMDAT = true := by
  have hlayout : s.inputFile.content.length ≤
      (s.inputFile.output.layout s.inputFile.size.toNat).length := by
    rw [content_recording hrecording, List.length_take]
    exact Nat.min_le_right _ _
  rw [hfound] at hpos
  obtain ⟨more, hread, hpos', hinside'⟩ := readAndDeliver_spec (standsAt_recording hrecording)
    hlayout hpos hinside (by decide)
  refine ⟨{ s with
    foundMDAT := l.foundMDAT
    posMDAT := l.posMDAT
    bytesToNextAtom := l.bytesToNextAtom
    offsetInFile := l.offset + (encode 4 more).length
    delivered := s.delivered ++ more }, ?_, ?_,
    ⟨rfl, rfl, rfl, rfl, rfl, List.prefix_append _ _⟩, hfound⟩
  · rw [onFileUpdate]
    simp only [hlocate, Option.bind_eq_bind, Option.bind_some, hfound,
      readAndDeliver_four h.lengthSize, hread]
    rfl
  · refine ⟨h.lengthSize, hinside', ⟨given ++ more, ?_, ?_⟩, h.finished, h.idle, h.next⟩
    · rw [hfound]
      exact hpos'
    · dsimp only
      rw [hdelivered, List.append_assoc]

/-- The file shows more of its `mdat` than the header, in a number of bytes that
an `int` holds. -/
structure Shows (s : AVEncoder) : Prop where
  oversized : ¬ Oversized s.inputFile.output
  mdat : (atomsBytes s.inputFile.output.atoms).length + 8 < s.inputFile.content.length
  length : s.inputFile.content.length < 2 ^ 31

/-- The call returns unless there is an oversized atom, and finds the `mdat` when
the file shows it. -/
theorem onFileUpdate_spec {s : AVEncoder} (h : Extracting s)
    (hrecording : s.inputFile.finished = false) :
    (∃ s', s.onFileUpdate = some s' ∧ Extracting s' ∧ Updated s s' ∧
      (Shows s → s'.foundMDAT = true)) ∨
      (s.onFileUpdate = none ∧ Oversized s.inputFile.output) := by
  obtain ⟨given, hpos, hdelivered⟩ := h.reading
  have hready := ofInt_sub h.offset
  have hrest := toInt_ofNat_le (s.inputFile.content.length - s.offsetInFile)
  have hoffset := h.offset
  cases hfound : s.foundMDAT with
  | true =>
    left
    obtain ⟨s', hupdate, hextracting, hupdated, hfound'⟩ :=
      onFileUpdate_found h hrecording hdelivered hfound hpos (by
        dsimp only
        have hmod := Nat.mod_le (s.inputFile.content.length - s.offsetInFile) (2 ^ 32)
        rw [BitVec.ofInt_toInt, hready, BitVec.toNat_ofNat]
        omega) (locate_done (by simp [hfound]))
    exact ⟨s', hupdate, hextracting, hupdated, fun _ => hfound'⟩
  | false =>
    have hnone : given = [] := by
      rw [hfound] at hpos
      exact hpos.given_nil
    subst hnone
    rcases locate_spec (standsAt_recording hrecording) (l := ⟨s.foundMDAT, s.posMDAT,
      s.bytesToNextAtom, s.offsetInFile, (BitVec.ofInt 32 ((s.inputFile.content.length : Int) -
        s.offsetInFile)).toInt⟩) hpos hfound hoffset (by rw [hready]; dsimp only; omega) with
      ⟨l, hlocate, hat, hoffset', hkept, hnonneg, hend⟩ | ⟨hlocate, hover⟩
    · left
      rw [hready] at hkept
      dsimp only at hkept
      cases hfound' : l.foundMDAT with
      | true =>
        have hcast := toNat_ofInt_le (hnonneg hfound')
        obtain ⟨s', hupdate, hextracting, hupdated, hfound''⟩ :=
          onFileUpdate_found h hrecording hdelivered hfound' hat (by omega) hlocate
        exact ⟨s', hupdate, hextracting, hupdated, fun _ => hfound''⟩
      | false =>
        refine ⟨{ s with
          foundMDAT := l.foundMDAT
          posMDAT := l.posMDAT
          bytesToNextAtom := l.bytesToNextAtom
          offsetInFile := l.offset }, ?_, ?_,
          ⟨rfl, rfl, rfl, rfl, rfl, List.prefix_refl _⟩, ?_⟩
        · rw [onFileUpdate]
          simp only [hlocate, Option.bind_eq_bind, Option.bind_some, hfound']
          rfl
        · exact ⟨h.lengthSize, hoffset', ⟨[], hat, hdelivered⟩, h.finished, h.idle, h.next⟩
        · -- at most eight bytes are left, so the reader is behind the front of the `mdat`
          intro hshows
          have hstop := hend hfound'
          have hmdat := hshows.mdat
          have hint := toInt_ofNat_of_lt (n := s.inputFile.content.length - s.offsetInFile)
            (by have hlength := hshows.length; omega)
          rw [Locating.At, hfound'] at hat
          have hfront := hat.before_mdat hshows.oversized
          omega
    · right
      refine ⟨?_, hover⟩
      rw [onFileUpdate]
      simp only [hlocate, Option.bind_eq_bind, Option.bind_none]

/-! ### Leaving a file -/

/-- Modulo 2^32 it does not matter that the length went through an `int`. -/
theorem cRead_eq (pos : Nat) {length done : Nat} (hdone : done ≤ length) (hlength : length < 2 ^ 32) :
    (BitVec.ofInt 32 ((pos : Int) + (BitVec.ofNat 32 length).toInt - (pos + done : Nat))).toNat =
      length - done := by
  have hnat : (BitVec.ofNat 32 length).toNat = length := Nat.mod_eq_of_lt hlength
  rw [BitVec.toNat_ofInt, BitVec.toInt_eq_toNat_cond, hnat]
  split
  · omega
  · omega

/-- When the search of the old file is over, the rest of it is read and the new file is
taken. -/
theorem swapFiles_spec {s : AVEncoder} {newFile : File} (h : Extracting s)
    (hfinished : s.inputFile.finished = true) (hnext : s.next = some newFile)
    (hfound : s.foundMDAT = true) :
    ∃ s', s.swapFiles newFile = some s' ∧ Extracting s' ∧ s'.inputFile = newFile ∧
      s'.next = none ∧ s'.closed = s.closed ++ [s.inputFile.output] ∧
      s.delivered <+: s'.delivered := by
  obtain ⟨given, hpos, hdelivered⟩ := h.reading
  rw [hfound] at hpos
  obtain ⟨rest, hnalus, hposMDAT, hoffset⟩ := hpos.found
  have hcontent : s.inputFile.content =
      s.inputFile.output.layout (8 + (encode 4 s.inputFile.output.nalus).length) ++
        s.inputFile.output.trailer := if_pos hfinished
  have hlength : StandsAt (toBE 4 (8 + (encode 4 s.inputFile.output.nalus).length)) s.posMDAT
      s.inputFile.content := by
    rw [hcontent, hposMDAT]
    exact (standsAt_append.mp (layout_mdat _ _)).1.extend _
  have hrest : StandsAt ((encode 4 rest).take (encode 4 rest).length) s.offsetInFile
      s.inputFile.content := by
    rw [hcontent, hoffset, List.take_length]
    exact (layout_nalus hnalus).extend _
  have hfits : ∀ nalu ∈ rest, Fits 4 nalu := fun nalu hmem =>
    nalus_fit s.inputFile.output nalu (by rw [hnalus]; exact List.mem_append_right _ hmem)
  have hsplit : (encode 4 s.inputFile.output.nalus).length =
      (encode 4 given).length + (encode 4 rest).length := by
    rw [hnalus, encode_append, List.length_append]
  have hcRead : (BitVec.ofInt 32 ((s.posMDAT : Int) + (BitVec.ofNat 32
      (8 + (encode 4 s.inputFile.output.nalus).length)).toInt - s.offsetInFile)).toNat =
      (encode 4 rest).length := by
    rw [hoffset, ← hposMDAT, Nat.add_assoc, cRead_eq _ (by omega) s.inputFile.output.fits]
    omega
  have hread := readAndDeliver_eq hfits le_rfl hrest (by decide)
  rw [whole_of_le le_rfl] at hread
  refine ⟨{ s with
    inputFile := newFile
    offsetInFile := 0
    readSource := .resumed
    foundMDAT := false
    bytesToNextAtom := 0
    next := none
    closed := s.closed ++ [s.inputFile.output]
    delivered := s.delivered ++ rest }, ?_, ?_, rfl, rfl, rfl, List.prefix_append _ _⟩
  · rw [swapFiles]
    simp only [to_host_standsAt hlength, Option.bind_eq_bind, Option.bind_some, hcRead,
      readAndDeliver_four h.lengthSize, hread]
  · have hnew := (h.next newFile hnext).1
    refine ⟨h.lengthSize, Nat.zero_le _, ⟨[], ?_, ?_⟩, ?_, fun _ => rfl, ?_⟩
    · exact .searching [] newFile.output.atoms rfl le_rfl rfl
    · dsimp only
      rw [hdelivered, List.flatMap_append, List.flatMap_singleton, hnalus, List.append_assoc,
        List.append_nil]
    · intro hdone
      rw [hnew] at hdone
      cases hdone
    · intro f hf
      cases hf

end AVEncoder

end Sogx
