import Sogx.Lib.Records

/-!
The files of the video writer, as the encoder finds them while they are recorded.

An `Output` is what a file holds in the end: atoms, the `mdat` with the NAL
units behind their lengths, and whatever the writer appends last. A `File` is
how much of it there is now; the length field of the `mdat` is only valid once
the file is finished.

* `layout_next_atom`, `layout_mdat`, `layout_nalus`: what stands where.
* `standsAt_recording`, `length_content_grow`: what is there of a file that is
  being recorded stands where it will stand, and the file only gets longer.
-/

namespace Sogx.MovieFile

open Sogx.Lib Sogx.Lib.Records

/-- `'mdat'`. -/
def mdat : BitVec 32 := 0x6d646174#32

/-- The eight bytes in front of an atom. -/
def atomHeader (length : Nat) (name : BitVec 32) : List Byte := toBE 4 length ++ toBE 4 name.toNat

/-- An atom in front of the `mdat`. -/
structure Atom where
  name : BitVec 32
  body : List Byte
  name_ne : name ≠ mdat
  fits : 8 + body.length < 2 ^ 32

def Atom.bytes (a : Atom) : List Byte := atomHeader (8 + a.body.length) a.name ++ a.body

def atomsBytes (atoms : List Atom) : List Byte := atoms.flatMap Atom.bytes

/-- What a file holds when it is finished: atoms, the `mdat`, and whatever comes
behind it. -/
structure Output where
  atoms : List Atom
  nalus : List (List Byte)
  trailer : List Byte
  nalus_ne_nil : ∀ nalu ∈ nalus, nalu ≠ []
  fits : 8 + (encode 4 nalus).length < 2 ^ 32

/-- The file up to the end of the `mdat`, with `size` in its length field. -/
def Output.layout (o : Output) (size : Nat) : List Byte :=
  atomsBytes o.atoms ++ (atomHeader size mdat ++ encode 4 o.nalus)

/-- A file while it is written. Before it is finished there is no trailer, and
the length field of the `mdat` may hold anything. -/
structure File where
  /-- `captureN.mp4` -/
  number : Nat
  output : Output
  visible : Nat
  size : BitVec 32
  finished : Bool

def File.content (f : File) : List Byte :=
  if f.finished then f.output.layout (8 + (encode 4 f.output.nalus).length) ++ f.output.trailer
  else (f.output.layout f.size.toNat).take f.visible

/-- The writer appends to the file. -/
def File.grow (visible : Nat) (size : BitVec 32) (f : File) : Option File :=
  if f.visible ≤ visible ∧ f.finished = false then
    some { f with visible := visible, size := size }
  else none

/-- There is an atom whose length an `int` does not hold. -/
def Oversized (o : Output) : Prop := ∃ a ∈ o.atoms, 2 ^ 31 ≤ 8 + a.body.length

/-! ### What stands where -/

theorem length_atomHeader (length : Nat) (name : BitVec 32) :
    (atomHeader length name).length = 8 := by
  simp [atomHeader]

theorem length_atomBytes (a : Atom) : a.bytes.length = 8 + a.body.length := by
  rw [Atom.bytes, List.length_append, length_atomHeader]

theorem atomsBytes_append (atoms rest : List Atom) :
    atomsBytes (atoms ++ rest) = atomsBytes atoms ++ atomsBytes rest :=
  List.flatMap_append

theorem length_atomsBytes_snoc (atoms : List Atom) (a : Atom) :
    (atomsBytes (atoms ++ [a])).length = (atomsBytes atoms).length + (8 + a.body.length) := by
  have hone : atomsBytes [a] = a.bytes := List.append_nil _
  rw [atomsBytes_append, List.length_append, hone, length_atomBytes]

/-- Behind the atoms skipped stands the header of the next one, or of the `mdat`. -/
theorem layout_next_atom {o : Output} {size : Nat} {skipped rest : List Atom} {a : Atom}
    (h : o.atoms = skipped ++ a :: rest) :
    StandsAt (atomHeader (8 + a.body.length) a.name) (atomsBytes skipped).length
      (o.layout size) := by
  have hlayout : o.layout size = atomsBytes skipped ++
      (atomHeader (8 + a.body.length) a.name ++
        (a.body ++ (atomsBytes rest ++ (atomHeader size mdat ++ encode 4 o.nalus)))) := by
    rw [Output.layout, h, atomsBytes_append]
    simp [atomsBytes, Atom.bytes]
  rw [hlayout]
  exact standsAt_middle _ _ _

/-- The header of the media stands behind the other atoms. -/
theorem layout_mdat (o : Output) (size : Nat) :
    StandsAt (atomHeader size mdat) (atomsBytes o.atoms).length (o.layout size) :=
  standsAt_middle _ _ _

/-- Behind the units that were given stand the others. -/
theorem layout_nalus {o : Output} {size : Nat} {given rest : List (List Byte)}
    (h : o.nalus = given ++ rest) :
    StandsAt (encode 4 rest) ((atomsBytes o.atoms).length + 8 + (encode 4 given).length)
      (o.layout size) := by
  have hlayout : o.layout size =
      (atomsBytes o.atoms ++ atomHeader size mdat ++ encode 4 given) ++ (encode 4 rest ++ []) := by
    rw [Output.layout, h, encode_append]
    simp
  have hlength : (atomsBytes o.atoms ++ atomHeader size mdat ++ encode 4 given).length =
      (atomsBytes o.atoms).length + 8 + (encode 4 given).length := by
    rw [List.length_append, List.length_append, length_atomHeader]
  rw [hlayout, ← hlength]
  exact standsAt_middle _ _ _

/-- A file is as long as its atoms, the header of the media and its units. -/
theorem length_layout (o : Output) (size : Nat) :
    (o.layout size).length = (atomsBytes o.atoms).length + 8 + (encode 4 o.nalus).length := by
  rw [Output.layout, List.length_append, List.length_append, length_atomHeader, Nat.add_assoc]

/-- Every unit fits the length in front of it. -/
theorem nalus_fit (o : Output) : ∀ nalu ∈ o.nalus, Fits 4 nalu := by
  intro nalu hmem
  have hle := length_le_length_encode (w := 4) hmem
  have hfits := o.fits
  exact ⟨o.nalus_ne_nil nalu hmem, by omega⟩

/-! ### A file that is recorded -/

/-- While it is written a file holds the part that is visible. -/
theorem content_recording {f : File} (h : f.finished = false) :
    f.content = (f.output.layout f.size.toNat).take f.visible := by
  rw [File.content, if_neg (by simp [h])]

/-- What stands in the layout stands in the visible part. -/
theorem standsAt_recording {f : File} (h : f.finished = false) (p : List Byte) (k : Nat)
    (hstands : StandsAt p k (f.output.layout f.size.toNat))
    (hinside : k + p.length ≤ f.content.length) : StandsAt p k f.content := by
  rw [content_recording h] at hinside ⊢
  refine hstands.front (Nat.le_trans hinside ?_)
  rw [List.length_take]
  exact Nat.min_le_left _ _

/-- A file grows while it is not finished, and only in what is visible. -/
theorem grow_cases {f f' : File} {visible : Nat} {size : BitVec 32}
    (h : f.grow visible size = some f') :
    f.finished = false ∧ f.visible ≤ visible ∧ f' = { f with visible := visible, size := size } := by
  unfold File.grow at h
  split at h
  · rename_i hgrows
    cases h
    exact ⟨hgrows.2, hgrows.1, rfl⟩
  · cases h

/-- A file only gets longer, whatever its length field says. -/
theorem length_content_grow {f f' : File} {visible : Nat} {size : BitVec 32}
    (h : f.grow visible size = some f') : f.content.length ≤ f'.content.length := by
  obtain ⟨hrecording, hvisible, rfl⟩ := grow_cases h
  have hlonger : { f with visible := visible, size := size : File }.content =
      (f.output.layout size.toNat).take visible := content_recording hrecording
  rw [content_recording hrecording, hlonger, List.length_take, List.length_take, length_layout,
    length_layout]
  exact min_le_min_right _ hvisible

theorem length_content_finish (f : File) :
    f.content.length ≤ { f with finished := true : File }.content.length := by
  have hfinished : { f with finished := true : File }.content =
      f.output.layout (8 + (encode 4 f.output.nalus).length) ++ f.output.trailer := rfl
  cases h : f.finished with
  | true => rw [hfinished, File.content, if_pos h]
  | false =>
    rw [hfinished, content_recording h, List.length_take, List.length_append, length_layout,
      length_layout]
    exact (Nat.min_le_right _ _).trans (Nat.le_add_right _ _)

end Sogx.MovieFile
