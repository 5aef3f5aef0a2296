import Sogx.Ios.MP4Atom

/-!
`AVEncoder.mm`: whether the scans of the writer's files come to an end.

`parseParams` walks down the atoms of the finished first file to the `avcC`
record, and `onFileUpdate` looks in the file that is recorded for the `mdat`.

* `terminates_parseParams_iff`: the walks of `parseParams` return if and only if
  each of them gets on (`ParamsGetOn`).
* `gives_search_iff`: the loop of `onFileUpdate`, with turns that may go on for ever,
  leaves what `locate` finds.
* `locate_isSome_iff`: it ends if and only if the headers lead it on (`LeadOn`).
* `scans_end_iff`: the two together, for every file.
-/

namespace Sogx

open Sogx.Lib Sogx.MovieFile

namespace AVEncoder

/-! ### `parseParams` -/

/-- `'file'` and the types of the atoms that `parseParams:` asks for. -/
def file : BitVec 32 := 0x66696c65#32
def moov : BitVec 32 := 0x6d6f6f76#32
def trak : BitVec 32 := 0x7472616b#32
def tkhd : BitVec 32 := 0x746b6864#32
def mdia : BitVec 32 := 0x6d646961#32
def minf : BitVec 32 := 0x6d696e66#32
def stbl : BitVec 32 := 0x7374626c#32
def stsd : BitVec 32 := 0x73747364#32
def avc1 : BitVec 32 := 0x61766331#32
def avcC : BitVec 32 := 0x61766343#32

/-- What the loop over the children of `moov` leaves in `trak`. `badAccess` is a
`tkhd` that is missing or too short, whose flags are read all the same. -/
inductive Chosen where
  | noTrak | trak (a : MP4Atom) | badAccess

/-- What `parseParams:` comes to, with `_avcC` and `_lengthSize`. -/
inductive Params where
  | no | yes (avcC : List Byte) (lengthSize : Nat) | badAccess

/-- `p[3]`, the last byte of the flags of a `tkhd`. -/
def flagsByte (content : List Byte) (tkhd : Option MP4Atom) : Option Byte :=
  tkhd.bind fun tkhd => (tkhd.readAt content 0 4)[3]?

/-- A track is left in `trak` when its flags say that it is enabled. -/
def choose (child : MP4Atom) : Option Byte → Option Chosen
  | none => some .badAccess
  | some flags => if flags &&& 1 ≠ 0 then some (.trak child) else none

/-- The body of the loop over the children of `moov`. -/
def lookForTrak (content : List Byte) (child : MP4Atom) : Fueled (Option Chosen) := fun n =>
  if child.type = trak then do
    let tkhd ← child.childOfType content tkhd 0 n
    .ok (choose child (flagsByte content tkhd))
  else .ok none

def chooseTrak (content : List Byte) : MP4Atom → Fueled Chosen :=
  MP4Atom.walk content .noTrak (lookForTrak content)

/-- The nested `if`s: each atom is looked for in the one before. -/
def descend (content : List Byte) : List (BitVec 32 × Nat) → MP4Atom → Fueled (Option MP4Atom)
  | [], a => fun _ => .ok (some a)
  | (fourcc, offset) :: path, a => fun n => do
    match ← a.childOfType content fourcc offset n with
    | none => .ok none
    | some child => descend content path child n

/-- From the track to the record. -/
def avcCPath : List (BitVec 32 × Nat) :=
  [(mdia, 0), (minf, 0), (stbl, 0), (stsd, 0), (avc1, 8), (avcC, 78)]

def readParams (content : List Byte) : Option MP4Atom → Params
  | none => .no
  | some esd =>
    let avcC := esd.readAt content 0 esd.length
    match avcC[4]? with
    | none => .badAccess
    | some p => .yes avcC ((p &&& 3).toNat + 1)

def parseTrak (content : List Byte) : Chosen → Fueled Params
  | .noTrak => fun _ => .ok .no
  | .badAccess => fun _ => .ok .badAccess
  | .trak a => fun n => do
    let esd ← descend content avcCPath a n
    .ok (readParams content esd)

def parseMoov (content : List Byte) : Option MP4Atom → Fueled Params
  | none => fun _ => .ok .no
  | some moov => fun n => do
    let chosen ← chooseTrak content moov n
    parseTrak content chosen n

def movie (content : List Byte) : MP4Atom := MP4Atom.atomAt 0 content.length file

def parseParams (content : List Byte) : Fueled Params := fun n => do
  let moov ← (movie content).childOfType content moov 0 n
  parseMoov content moov n

/-! ### The walks of `parseParams` -/

section Walks

variable {content : List Byte}

/-- The last byte of the flags of a track. -/
def TrackFlags (content : List Byte) (a : MP4Atom) (flags : Byte) : Prop :=
  ∃ header, a.FindsType content tkhd 0 header ∧ flagsByte content (some header) = some flags

/-- The track is enabled. -/
def Enabled (content : List Byte) (a : MP4Atom) : Prop :=
  a.type = trak ∧ ∃ flags, TrackFlags content a flags ∧ flags &&& 1 ≠ 0

/-- No track, or one that is not enabled. -/
def Skipped (content : List Byte) (a : MP4Atom) : Prop :=
  a.type ≠ trak ∨ ∃ flags, TrackFlags content a flags ∧ flags &&& 1 = 0

/-- Each walk down a path gets on. -/
def DescentGetsOn (content : List Byte) : List (BitVec 32 × Nat) → MP4Atom → Prop
  | [], _ => True
  | (fourcc, offset) :: path, a =>
    a.MovesToType content fourcc offset ∧
      ∀ child, a.FindsType content fourcc offset child → DescentGetsOn content path child

/-- A track that the loop over the children of a `moov` comes to. -/
def Comes (content : List Byte) (a child : MP4Atom) : Prop :=
  ∃ pos len, a.Meets content (Skipped content) pos ∧ a.ChildAt content pos child len

/-- The walks below a `moov` get on, each as far as the ones before lead to it. -/
structure TraksGetOn (content : List Byte) (a : MP4Atom) : Prop where
  traks : a.Moves content (Skipped content)
  tkhd : ∀ child, Comes content a child → child.type = trak → child.MovesToType content tkhd 0
  enabled : ∀ child, Comes content a child → Enabled content child →
    DescentGetsOn content avcCPath child

/-- The walks of `parseParams:` get on. -/
structure ParamsGetOn (content : List Byte) : Prop where
  movie : (movie content).MovesToType content moov 0
  moov : ∀ a, (AVEncoder.movie content).FindsType content moov 0 a → TraksGetOn content a

/-- A track is passed over if its flags say that it is not enabled. -/
theorem choose_eq_none {child : MP4Atom} {flags : Option Byte} :
    choose child flags = none ↔ ∃ bits, flags = some bits ∧ bits &&& 1 = 0 := by
  cases flags with
  | none => simp [choose]
  | some bits =>
    simp only [choose, Option.some.injEq, exists_eq_left']
    split_ifs with h
    · exact ⟨by nofun, fun hzero => absurd hzero h⟩
    · exact ⟨fun _ => not_not.mp h, fun _ => rfl⟩

theorem choose_eq_trak {child a : MP4Atom} {flags : Option Byte} :
    choose child flags = some (.trak a) ↔
      a = child ∧ ∃ bits, flags = some bits ∧ bits &&& 1 ≠ 0 := by
  cases flags with
  | none => simp [choose]
  | some bits =>
    simp only [choose, Option.some.injEq, exists_eq_left']
    split_ifs with h
    · exact ⟨fun hsame => ⟨(Chosen.trak.inj (Option.some.inj hsame)).symm, h⟩,
        fun hsame => by rw [hsame.1]⟩
    · exact ⟨by nofun, fun hbit => absurd hbit.2 h⟩

/-- The flags are those in the header of the track. -/
theorem trackFlags_iff {child : MP4Atom} {flags : Byte} :
    TrackFlags content child flags ↔
      ∃ header, Gives (child.childOfType content tkhd 0) header ∧
        flagsByte content header = some flags := by
  unfold TrackFlags
  constructor
  · rintro ⟨header, hfinds, hflags⟩
    exact ⟨some header, MP4Atom.gives_childOfType_iff.mpr hfinds, hflags⟩
  · rintro ⟨_ | header, hgives, hflags⟩
    · cases hflags
    · exact ⟨header, MP4Atom.gives_childOfType_iff.mp hgives, hflags⟩

theorem lookForTrak_of_ne {child : MP4Atom} (h : child.type ≠ trak) :
    lookForTrak content child = fun _ => .ok none := by
  funext n
  rw [lookForTrak, if_neg h]

theorem steady_lookForTrak (content : List Byte) (child : MP4Atom) :
    Steady (lookForTrak content child) := by
  by_cases htrak : child.type = trak
  · unfold lookForTrak
    simp only [if_pos htrak]
    exact Steady.bind (MP4Atom.steady_childOfType content tkhd 0 child) fun _ => steady_const _
  · rw [lookForTrak_of_ne htrak]
    exact steady_const _

theorem gives_lookForTrak_iff {child : MP4Atom} {found : Option Chosen} (htrak : child.type = trak) :
    Gives (lookForTrak content child) found ↔
      ∃ header, Gives (child.childOfType content tkhd 0) header ∧
        choose child (flagsByte content header) = found := by
  unfold lookForTrak
  simp only [if_pos htrak]
  rw [gives_bind_iff (MP4Atom.steady_childOfType content tkhd 0 child) fun _ => steady_const _]
  simp only [gives_const_iff, Except.ok.injEq]

/-- An atom is passed over if it is no track, or one that is not enabled. -/
theorem gives_lookForTrak_none {child : MP4Atom} :
    Gives (lookForTrak content child) none ↔ Skipped content child := by
  unfold Skipped
  by_cases htrak : child.type = trak
  · rw [gives_lookForTrak_iff htrak]
    simp only [trackFlags_iff, htrak, ne_eq, not_true_eq_false, false_or, choose_eq_none]
    constructor
    · rintro ⟨header, hgives, flags, hflags, hbit⟩
      exact ⟨flags, ⟨header, hgives, hflags⟩, hbit⟩
    · rintro ⟨flags, ⟨header, hgives, hflags⟩, hbit⟩
      exact ⟨header, hgives, flags, hflags, hbit⟩
  · rw [lookForTrak_of_ne htrak, gives_const_iff]
    exact ⟨fun _ => .inl htrak, fun _ => rfl⟩

theorem gives_lookForTrak_trak {child a : MP4Atom} :
    Gives (lookForTrak content child) (some (.trak a)) ↔ a = child ∧ Enabled content child := by
  unfold Enabled
  by_cases htrak : child.type = trak
  · rw [gives_lookForTrak_iff htrak]
    simp only [trackFlags_iff, htrak, true_and, choose_eq_trak]
    constructor
    · rintro ⟨header, hgives, hsame, flags, hflags, hbit⟩
      exact ⟨hsame, flags, ⟨header, hgives, hflags⟩, hbit⟩
    · rintro ⟨hsame, flags, ⟨header, hgives, hflags⟩, hbit⟩
      exact ⟨header, hgives, hsame, flags, hflags, hbit⟩
  · rw [lookForTrak_of_ne htrak, gives_const_iff]
    exact ⟨by nofun, fun h => absurd h.2.1 htrak⟩

theorem terminates_lookForTrak_iff {child : MP4Atom} :
    Terminates (lookForTrak content child) ↔
      (child.type = trak → child.MovesToType content tkhd 0) := by
  by_cases htrak : child.type = trak
  · rw [← MP4Atom.terminates_childOfType_iff]
    unfold Terminates
    simp only [gives_lookForTrak_iff htrak, htrak, true_imp_iff]
    constructor
    · rintro ⟨_, header, hgives, -⟩
      exact ⟨header, hgives⟩
    · rintro ⟨header, hgives⟩
      exact ⟨_, header, hgives, rfl⟩
  · rw [lookForTrak_of_ne htrak]
    exact ⟨fun _ hsame => absurd hsame htrak, fun _ => ⟨none, 0, rfl⟩⟩

theorem steady_chooseTrak (content : List Byte) (a : MP4Atom) : Steady (chooseTrak content a) :=
  MP4Atom.steady_walk (steady_lookForTrak content) a

theorem passed_lookForTrak (content : List Byte) :
    (fun child => Gives (lookForTrak content child) none) = Skipped content :=
  funext fun _ => propext gives_lookForTrak_none

/-- The first track that comes and is enabled is chosen. -/
theorem gives_chooseTrak_iff {a child : MP4Atom} :
    Gives (chooseTrak content a) (.trak child) ↔ Comes content a child ∧ Enabled content child := by
  unfold chooseTrak Comes
  rw [MP4Atom.gives_walk_iff (steady_lookForTrak content) (by nofun), passed_lookForTrak]
  constructor
  · rintro ⟨pos, child', len, hmeets, hchild, hfound⟩
    obtain ⟨rfl, henabled⟩ := gives_lookForTrak_trak.mp hfound
    exact ⟨⟨pos, len, hmeets, hchild⟩, henabled⟩
  · rintro ⟨⟨pos, len, hmeets, hchild⟩, henabled⟩
    exact ⟨pos, child, len, hmeets, hchild, gives_lookForTrak_trak.mpr ⟨rfl, henabled⟩⟩

/-- The choice ends if the walk over the atoms gets on, and in each track that comes the
search for its header does. -/
theorem terminates_chooseTrak_iff {a : MP4Atom} :
    Terminates (chooseTrak content a) ↔
      a.Moves content (Skipped content) ∧ ∀ child, Comes content a child → child.type = trak →
        child.MovesToType content tkhd 0 := by
  unfold chooseTrak Comes
  rw [MP4Atom.terminates_walk_iff (steady_lookForTrak content), passed_lookForTrak]
  simp only [terminates_lookForTrak_iff]
  refine and_congr_right fun _ => ⟨?_, ?_⟩
  · rintro h child ⟨pos, len, hmeets, hchild⟩
    exact h pos child len hmeets hchild
  · intro h pos child len hmeets hchild
    exact h child ⟨pos, len, hmeets, hchild⟩

theorem steady_descend (content : List Byte) (path : List (BitVec 32 × Nat)) (a : MP4Atom) :
    Steady (descend content path a) := by
  induction path generalizing a with
  | nil => exact steady_const _
  | cons step path ih =>
    obtain ⟨fourcc, offset⟩ := step
    refine Steady.bind (MP4Atom.steady_childOfType content fourcc offset a) ?_
    intro found
    cases found with
    | none => exact steady_const _
    | some child => exact ih child

/-- The way down ends if each search on it gets on, by induction on the way. -/
theorem terminates_descend_iff {path : List (BitVec 32 × Nat)} {a : MP4Atom} :
    Terminates (descend content path a) ↔ DescentGetsOn content path a := by
  induction path generalizing a with
  | nil => exact ⟨fun _ => trivial, fun _ => ⟨_, 0, rfl⟩⟩
  | cons step path ih =>
    obtain ⟨fourcc, offset⟩ := step
    have hnext : ∀ found : Option MP4Atom, Steady fun n =>
        match found with
        | none => .ok none
        | some child => descend content path child n := by
      intro found
      cases found with
      | none => exact steady_const _
      | some child => exact steady_descend content path child
    unfold descend DescentGetsOn
    rw [terminates_bind_iff (MP4Atom.steady_childOfType content fourcc offset a) hnext,
      MP4Atom.terminates_childOfType_iff]
    refine and_congr_right fun _ => ⟨?_, ?_⟩
    · intro h child hfinds
      exact ih.mp (h (some child) (MP4Atom.gives_childOfType_iff.mpr hfinds))
    · intro h found hgives
      cases found with
      | none => exact ⟨none, 0, rfl⟩
      | some child => exact ih.mpr (h child (MP4Atom.gives_childOfType_iff.mp hgives))

theorem steady_parseTrak (content : List Byte) (chosen : Chosen) :
    Steady (parseTrak content chosen) := by
  cases chosen with
  | noTrak => exact steady_const _
  | badAccess => exact steady_const _
  | trak a => exact Steady.bind (steady_descend content avcCPath a) fun _ => steady_const _

/-- In a track that was chosen the way down to the record has to get on. -/
theorem terminates_parseTrak_iff {chosen : Chosen} :
    Terminates (parseTrak content chosen) ↔
      ∀ a, chosen = .trak a → DescentGetsOn content avcCPath a := by
  cases chosen with
  | noTrak => exact ⟨fun _ => by nofun, fun _ => ⟨_, 0, rfl⟩⟩
  | badAccess => exact ⟨fun _ => by nofun, fun _ => ⟨_, 0, rfl⟩⟩
  | trak a =>
    unfold parseTrak
    rw [terminates_bind_iff (steady_descend content avcCPath a) fun _ => steady_const _,
      terminates_descend_iff]
    constructor
    · rintro ⟨hdescent, -⟩ a' hsame
      cases hsame
      exact hdescent
    · intro h
      exact ⟨h a rfl, fun _ _ => ⟨_, 0, rfl⟩⟩

theorem steady_parseMoov (content : List Byte) (moov : Option MP4Atom) :
    Steady (parseMoov content moov) := by
  cases moov with
  | none => exact steady_const _
  | some a => exact Steady.bind (steady_chooseTrak content a) (steady_parseTrak content)

/-- In the movie atom both the choice of a track and the way down have to get on. -/
theorem terminates_parseMoov_iff {a : MP4Atom} :
    Terminates (parseMoov content (some a)) ↔ TraksGetOn content a := by
  unfold parseMoov
  rw [terminates_bind_iff (steady_chooseTrak content a) (steady_parseTrak content),
    terminates_chooseTrak_iff]
  simp only [terminates_parseTrak_iff]
  constructor
  · rintro ⟨⟨htraks, htkhd⟩, hrest⟩
    refine ⟨htraks, htkhd, ?_⟩
    intro child hcomes henabled
    exact hrest _ (gives_chooseTrak_iff.mpr ⟨hcomes, henabled⟩) child rfl
  · intro h
    refine ⟨⟨h.traks, h.tkhd⟩, ?_⟩
    rintro chosen hgives child rfl
    obtain ⟨hcomes, henabled⟩ := gives_chooseTrak_iff.mp hgives
    exact h.enabled child hcomes henabled

/-- The scan for the parameters ends if and only if it gets on in the file. -/
theorem terminates_parseParams_iff : Terminates (parseParams content) ↔ ParamsGetOn content := by
  unfold parseParams
  rw [terminates_bind_iff (MP4Atom.steady_childOfType content moov 0 (movie content))
    (steady_parseMoov content), MP4Atom.terminates_childOfType_iff]
  constructor
  · rintro ⟨hmovie, hrest⟩
    refine ⟨hmovie, ?_⟩
    intro a hfinds
    exact terminates_parseMoov_iff.mp (hrest (some a) (MP4Atom.gives_childOfType_iff.mpr hfinds))
  · intro h
    refine ⟨h.movie, ?_⟩
    intro found hgives
    cases found with
    | none => exact ⟨.no, 0, rfl⟩
    | some a =>
      have hfinds := MP4Atom.gives_childOfType_iff.mp hgives
      exact terminates_parseMoov_iff.mpr (h.moov a hfinds)

end Walks

/-! ### The loop of `onFileUpdate` -/

section Searching

/-- A turn of the loop of `onFileUpdate`, with its condition. -/
def searchTurn (content : List Byte) (l : Locating) : Fueled (Turn Locating Locating) := fun _ =>
  if l.foundMDAT = false ∧ 8 < l.cReady then
    match loopBody content l with
    | none => .error .fault
    | some l' => .ok (.again l')
  else .ok (.done l)

def search (content : List Byte) : Locating → Fueled Locating := loop (searchTurn content)

/-- The variables as a call of `onFileUpdate` has them in front of the loop. -/
def atCall (content : List Byte) (foundMDAT : Bool) (posMDAT : Nat) (bytesToNextAtom : Int)
    (offsetInFile : Nat) : Locating :=
  ⟨foundMDAT, posMDAT, bytesToNextAtom, offsetInFile,
    (BitVec.ofInt 32 ((content.length : Int) - offsetInFile)).toInt⟩

/-- The size and the name of the header at `pos`. -/
def HeaderAt (content : List Byte) (pos : Nat) (lenAtom nameAtom : BitVec 32) : Prop :=
  to_host ((content.drop pos).take 8) = some lenAtom ∧
    to_host (((content.drop pos).take 8).drop 4) = some nameAtom

/-- The header at `pos` is not that of the `mdat`, and its size leads to `pos'`. -/
def Leads (content : List Byte) (pos pos' : Nat) : Prop :=
  ∃ lenAtom nameAtom, HeaderAt content pos lenAtom nameAtom ∧ nameAtom ≠ mdat ∧
    8 ≤ lenAtom.toInt ∧ pos' = pos + lenAtom.toInt.toNat

/-- The header at `pos` is that of the `mdat` or leads on, or behind it there are
not more than the eight bytes at which the loop stops. -/
def LeadsOn (content : List Byte) (stop : Int) (pos : Nat) : Prop :=
  ∃ lenAtom nameAtom, HeaderAt content pos lenAtom nameAtom ∧
    (nameAtom = mdat ∨ 8 ≤ lenAtom.toInt ∨ stop ≤ pos + 16 ∧ -2 ^ 31 + 8 ≤ lenAtom.toInt)

/-- Every header that the loop comes to, from the one at `start`, leads it on. -/
def Way (content : List Byte) (start : Nat) (stop : Int) : Prop :=
  ∀ pos, Relation.ReflTransGen (Leads content) start pos → pos + 8 < stop → LeadsOn content stop pos

/-- What lets the loop end: it does not start behind an atom of a negative number
of bytes, and the headers lead it on. -/
def LeadOn (content : List Byte) (l : Locating) : Prop :=
  l.foundMDAT = false → 8 < l.cReady →
    0 ≤ l.bytesToNextAtom ∧ Way content (l.offset + l.bytesToNextAtom.toNat) (l.offset + l.cReady)

variable {content : List Byte}

theorem steady_searchTurn (content : List Byte) (l : Locating) : Steady (searchTurn content l) :=
  steady_const _

/-- The search goes on as the loop of the encoder does. -/
theorem again_searchTurn_iff {l l' : Locating} :
    Again (searchTurn content) l l' ↔
      (l.foundMDAT = false ∧ 8 < l.cReady) ∧ loopBody content l = some l' := by
  unfold Again searchTurn
  rw [gives_const_iff]
  split_ifs with hrun
  · cases hbody : loopBody content l with
    | none => simp
    | some next => simp [hrun]
  · simp [hrun]

theorem done_searchTurn_iff {l l' : Locating} :
    Gives (searchTurn content l) (.done l') ↔ ¬ (l.foundMDAT = false ∧ 8 < l.cReady) ∧ l' = l := by
  unfold searchTurn
  rw [gives_const_iff]
  split_ifs with hrun
  · cases hbody : loopBody content l with
    | none => simp [hrun]
    | some next => simp [hrun]
  · constructor
    · intro h
      cases h
      exact ⟨hrun, rfl⟩
    · rintro ⟨-, rfl⟩
      rfl

@[simp] theorem skipAtom_foundMDAT (l : Locating) : (skipAtom l).foundMDAT = l.foundMDAT := by
  unfold skipAtom
  split <;> rfl

theorem skipAtom_of_neg {l : Locating} (h : l.bytesToNextAtom < 0) : skipAtom l = l := by
  rw [skipAtom, if_neg (by omega)]

/-- Behind an atom of a negative number of bytes neither `if` does anything. -/
theorem loopBody_of_neg {l : Locating} (h : l.bytesToNextAtom < 0) : loopBody content l = some l := by
  rw [loopBody, if_neg (by omega), skipAtom_of_neg h]

/-- With a negative count the search runs for ever. -/
theorem search_of_neg {l : Locating} (hrun : l.foundMDAT = false ∧ 8 < l.cReady)
    (hbytes : l.bytesToNextAtom < 0) (fuel : Nat) : search content l fuel = .error .running := by
  have hsame : ∀ n, searchTurn content l n = .ok (.again l) := by
    intro n
    rw [searchTurn, if_pos hrun, loopBody_of_neg hbytes]
  exact loop_running hsame hsame fuel

/-- A turn of the loop that is not stuck. -/
theorem gives_search_turn {l l' : Locating} (hrun : l.foundMDAT = false ∧ 8 < l.cReady) :
    Gives (search content l) l' ↔
      ∃ next, loopBody content l = some next ∧ Gives (search content next) l' := by
  unfold search
  rw [gives_loop_turn (steady_searchTurn content)]
  constructor
  · rintro (hdone | ⟨next, hagain, hrest⟩)
    · exact absurd hrun (done_searchTurn_iff.mp hdone).1
    · exact ⟨next, (again_searchTurn_iff.mp hagain).2, hrest⟩
  · rintro ⟨next, hbody, hrest⟩
    exact .inr ⟨next, again_searchTurn_iff.mpr ⟨hrun, hbody⟩, hrest⟩

theorem gives_search_done {l l' : Locating} (hrun : ¬ (l.foundMDAT = false ∧ 8 < l.cReady)) :
    Gives (search content l) l' ↔ l' = l := by
  unfold search
  rw [gives_loop_turn (steady_searchTurn content)]
  constructor
  · rintro (hdone | ⟨next, hagain, -⟩)
    · exact (done_searchTurn_iff.mp hdone).2
    · exact absurd (again_searchTurn_iff.mp hagain).1 hrun
  · intro hsame
    exact .inl (done_searchTurn_iff.mpr ⟨hrun, hsame⟩)

/-- The loop leaves what `locate` finds. -/
theorem gives_search_iff {l l' : Locating} :
    Gives (search content l) l' ↔ locate content l = some l' := by
  fun_induction locate content l with
  | case1 l hrun hbytes =>
    have hstuck : ¬ Terminates (search content l) :=
      not_terminates_of_running (search_of_neg hrun hbytes)
    exact ⟨fun hgives => absurd hgives.terminates hstuck, by nofun⟩
  | case2 l hrun hbytes hbody =>
    rw [gives_search_turn hrun, hbody]
    exact ⟨by nofun, by nofun⟩
  | case3 l hrun hbytes next hbody ih =>
    rw [gives_search_turn hrun, hbody, ← ih]
    simp only [Option.some.injEq, exists_eq_left']
  | case4 l hrun =>
    rw [gives_search_done hrun, Option.some.injEq]
    exact eq_comm

/-- The search ends if and only if the loop of the encoder gives a state. -/
theorem terminates_search_iff {l : Locating} :
    Terminates (search content l) ↔ ∃ l', locate content l = some l' :=
  exists_congr fun _ => gives_search_iff

/-! ### Headers -/

theorem HeaderAt.unique {pos : Nat} {len name len' name' : BitVec 32}
    (h : HeaderAt content pos len name) (h' : HeaderAt content pos len' name') :
    len' = len ∧ name' = name :=
  ⟨Option.some.inj (h'.1.symm.trans h.1), Option.some.inj (h'.2.symm.trans h.2)⟩

/-- A header leads on if its length does, as far as the loop looks. -/
theorem HeaderAt.leadsOn_iff {stop : Int} {pos : Nat} {len name : BitVec 32}
    (h : HeaderAt content pos len name) :
    LeadsOn content stop pos ↔
      name = mdat ∨ 8 ≤ len.toInt ∨ stop ≤ pos + 16 ∧ -2 ^ 31 + 8 ≤ len.toInt := by
  constructor
  · rintro ⟨len', name', h', hleads⟩
    obtain ⟨rfl, rfl⟩ := h.unique h'
    exact hleads
  · intro hleads
    exact ⟨len, name, h, hleads⟩

/-- What the loop does with a header depends on its name and its length. -/
theorem readHeader_of_header {l : Locating} {lenAtom nameAtom : BitVec 32}
    (h : HeaderAt content l.offset lenAtom nameAtom) :
    readHeader content l =
      if nameAtom = mdat then
        some { l with
          foundMDAT := true, posMDAT := l.offset, offset := l.offset + 8, cReady := l.cReady - 8 }
      else if lenAtom.toInt - 8 < -2 ^ 31 then none
      else some { l with
        bytesToNextAtom := lenAtom.toInt - 8
        offset := l.offset + 8
        cReady := l.cReady - 8 } := by
  have hlength : ((content.drop l.offset).take 8).length = 8 := by
    have hname := length_of_to_host h.2
    have htake := List.length_take_le 8 (content.drop l.offset)
    rw [List.length_drop] at hname
    omega
  unfold readHeader
  simp only [h.1, h.2, hlength]
  simp

theorem readHeader_of_none {l : Locating}
    (h : ∀ lenAtom nameAtom, ¬ HeaderAt content l.offset lenAtom nameAtom) :
    readHeader content l = none := by
  unfold readHeader
  cases hlen : to_host ((content.drop l.offset).take 8) with
  | none => simp [hlen]
  | some lenAtom =>
    cases hname : to_host (((content.drop l.offset).take 8).drop 4) with
    | none => simp [hlen, hname]
    | some nameAtom => exact absurd ⟨hlen, hname⟩ (h lenAtom nameAtom)

theorem Leads.le {pos pos' : Nat} (h : Leads content pos pos') : pos ≤ pos' := by
  obtain ⟨_, _, _, _, _, rfl⟩ := h
  exact Nat.le_add_right _ _

theorem leads_le {start pos : Nat} (h : Relation.ReflTransGen (Leads content) start pos) :
    start ≤ pos := by
  induction h with
  | refl => exact le_rfl
  | tail _ hleads ih => exact ih.trans hleads.le

theorem way_of_le {start : Nat} {stop : Int} (h : stop ≤ start + 8) : Way content start stop := by
  intro pos hreach hpos
  have hle := leads_le hreach
  omega

/-- A way leads on from a header to the next one, until the media is found. -/
theorem way_iff {start : Nat} {stop : Int} {lenAtom nameAtom : BitVec 32} (hstart : start + 8 < stop)
    (hheader : HeaderAt content start lenAtom nameAtom) :
    Way content start stop ↔ LeadsOn content stop start ∧
      (nameAtom ≠ mdat → 8 ≤ lenAtom.toInt → Way content (start + lenAtom.toInt.toNat) stop) := by
  constructor
  · intro h
    refine ⟨h start .refl hstart, ?_⟩
    intro hname hlen pos hreach hpos
    exact h pos (hreach.head ⟨lenAtom, nameAtom, hheader, hname, hlen, rfl⟩) hpos
  · rintro ⟨hleads, hrest⟩ pos hreach hpos
    rcases hreach.cases_head with rfl | ⟨next, ⟨len, name, hheader', hname, hlen, rfl⟩, hreach⟩
    · exact hleads
    · obtain ⟨rfl, rfl⟩ := hheader.unique hheader'
      exact hrest hname hlen pos hreach hpos

theorem leadOn_of_not_running {l : Locating} (h : ¬ (l.foundMDAT = false ∧ 8 < l.cReady)) :
    LeadOn content l :=
  fun hfound hready => absurd ⟨hfound, hready⟩ h

/-- While the search runs it has to skip an atom, and to find its way from there. -/
theorem leadOn_running {l : Locating} (hfound : l.foundMDAT = false) (hready : 8 < l.cReady) :
    LeadOn content l ↔ 0 ≤ l.bytesToNextAtom ∧
      Way content (l.offset + l.bytesToNextAtom.toNat) (l.offset + l.cReady) :=
  ⟨fun h => h hfound hready, fun h _ _ => h⟩

/-- In front of a header the guard of the loop may be left out. -/
theorem leadOn_iff_way {l : Locating} (hfound : l.foundMDAT = false) (hbytes : 0 ≤ l.bytesToNextAtom) :
    LeadOn content l ↔
      Way content (l.offset + l.bytesToNextAtom.toNat) (l.offset + l.cReady) := by
  by_cases hready : 8 < l.cReady
  · rw [leadOn_running hfound hready]
    exact and_iff_right hbytes
  · constructor
    · exact fun _ => way_of_le (by omega)
    · exact fun _ => leadOn_of_not_running fun h => hready h.2

theorem leadOn_skipAtom {l : Locating} (hfound : l.foundMDAT = false) (hbytes : 0 ≤ l.bytesToNextAtom) :
    LeadOn content (skipAtom l) ↔ LeadOn content l := by
  rw [leadOn_iff_way hfound hbytes]
  unfold skipAtom
  by_cases hskip : 0 < l.bytesToNextAtom
  · rw [if_pos hskip]
    dsimp only
    by_cases hshort : l.cReady < l.bytesToNextAtom
    · -- the atom goes on behind the bytes that are there
      rw [if_pos hshort]
      constructor
      · exact fun _ => way_of_le (by omega)
      · intro _ _ hmore
        dsimp only at hmore
        omega
    · rw [if_neg hshort, leadOn_iff_way (by exact hfound) (by dsimp only; omega)]
      dsimp only
      rw [Int.sub_self, Int.toNat_zero, Nat.add_zero]
      have hstop : ((l.offset + l.bytesToNextAtom.toNat : Nat) : Int) +
          (l.cReady - l.bytesToNextAtom) = l.offset + l.cReady := by omega
      rw [hstop]
  · rw [if_neg hskip, leadOn_iff_way hfound hbytes]

/-- The loop goes on from the header that it reads if and only if its size leads
it on, and goes on from there. -/
theorem leadOn_readHeader {l : Locating} (hfound : l.foundMDAT = false) (hready : 8 < l.cReady)
    (hbytes : l.bytesToNextAtom = 0) :
    LeadOn content l ↔ ∃ l', readHeader content l = some l' ∧ LeadOn content (skipAtom l') := by
  rw [leadOn_iff_way hfound hbytes.ge, hbytes, Int.toNat_zero, Nat.add_zero]
  by_cases hheader : ∃ lenAtom nameAtom, HeaderAt content l.offset lenAtom nameAtom
  · obtain ⟨lenAtom, nameAtom, hheader⟩ := hheader
    rw [way_iff (by omega) hheader, readHeader_of_header hheader]
    have hleads : LeadsOn content (l.offset + l.cReady) l.offset ↔ nameAtom = mdat ∨
        8 ≤ lenAtom.toInt ∨ l.cReady ≤ 16 ∧ -2 ^ 31 + 8 ≤ lenAtom.toInt := by
      have hstop : (l.offset : Int) + l.cReady ≤ l.offset + 16 ↔ l.cReady ≤ 16 :=
        Int.add_le_add_iff_left _
      rw [← hstop]
      exact hheader.leadsOn_iff
    rw [hleads]
    by_cases hname : nameAtom = mdat
    · simp only [if_pos hname, Option.some.injEq, exists_eq_left']
      constructor
      · intro _
        refine leadOn_of_not_running ?_
        rw [skipAtom_foundMDAT]
        rintro ⟨hno, -⟩
        cases hno
      · exact fun _ => ⟨.inl hname, fun hne => absurd hname hne⟩
    · rw [if_neg hname]
      simp only [hname, false_or, ne_eq, not_false_eq_true, true_imp_iff]
      by_cases hint : lenAtom.toInt - 8 < -2 ^ 31
      · rw [if_pos hint]
        constructor
        · rintro ⟨hlen, -⟩
          omega
        · rintro ⟨l', hread, -⟩
          cases hread
      · simp only [if_neg hint, Option.some.injEq, exists_eq_left']
        by_cases hlen : 8 ≤ lenAtom.toInt
        · rw [leadOn_skipAtom (by exact hfound) (by dsimp only; omega),
            leadOn_iff_way (by exact hfound) (by dsimp only; omega)]
          dsimp only
          have hstart : l.offset + 8 + (lenAtom.toInt - 8).toNat = l.offset + lenAtom.toInt.toNat := by
            omega
          have hstop : ((l.offset + 8 : Nat) : Int) + (l.cReady - 8) = l.offset + l.cReady := by
            omega
          rw [hstart, hstop]
          exact ⟨fun h => h.2 hlen, fun h => ⟨.inl hlen, fun _ => h⟩⟩
        · have hneg : lenAtom.toInt - 8 < 0 := by omega
          rw [skipAtom_of_neg (by exact hneg)]
          constructor
          · rintro ⟨hlast, -⟩
            refine leadOn_of_not_running ?_
            dsimp only
            omega
          · intro hlead
            refine ⟨?_, fun h => absurd h hlen⟩
            by_contra hmore
            have hrun := (leadOn_running (by exact hfound) (by dsimp only; omega)).mp hlead
            dsimp only at hrun
            omega
  · have hnone : ∀ lenAtom nameAtom, ¬ HeaderAt content l.offset lenAtom nameAtom := by
      simpa using hheader
    rw [readHeader_of_none hnone]
    constructor
    · intro hway
      obtain ⟨lenAtom, nameAtom, hat, -⟩ := hway l.offset .refl (by omega)
      exact absurd hat (hnone lenAtom nameAtom)
    · rintro ⟨l', hread, -⟩
      cases hread

/-- A turn that is not stuck keeps what lets the loop end. -/
theorem leadOn_loopBody {l : Locating} (hrun : l.foundMDAT = false ∧ 8 < l.cReady)
    (hbytes : 0 ≤ l.bytesToNextAtom) :
    LeadOn content l ↔ ∃ next, loopBody content l = some next ∧ LeadOn content next := by
  unfold loopBody
  by_cases hzero : l.bytesToNextAtom = 0
  · rw [if_pos hzero, leadOn_readHeader hrun.1 hrun.2 hzero]
    simp only [Option.map_eq_some_iff, exists_exists_and_eq_and]
  · rw [if_neg hzero, ← leadOn_skipAtom hrun.1 hbytes]
    simp only [Option.some.injEq, exists_eq_left']

/-- The loop ends if and only if the headers lead it on. -/
theorem locate_isSome_iff {l : Locating} :
    (∃ l', locate content l = some l') ↔ LeadOn content l := by
  fun_induction locate content l with
  | case1 l hrun hbytes =>
    rw [leadOn_running hrun.1 hrun.2]
    exact ⟨by nofun, fun h => absurd hbytes (Int.not_lt.mpr h.1)⟩
  | case2 l hrun hbytes hbody =>
    rw [leadOn_loopBody hrun (Int.not_lt.mp hbytes), hbody]
    exact ⟨by nofun, by nofun⟩
  | case3 l hrun hbytes next hbody ih =>
    rw [leadOn_loopBody hrun (Int.not_lt.mp hbytes), hbody, ih]
    simp only [Option.some.injEq, exists_eq_left']
  | case4 l hrun =>
    exact ⟨fun _ => leadOn_of_not_running hrun, fun _ => ⟨l, rfl⟩⟩

end Searching

/-! ### Both scans -/

/-- A call of `onFileUpdate` does not come back from a search that does not end. -/
theorem onFileUpdate_eq_none {s : AVEncoder}
    (h : ¬ Terminates (search s.inputFile.content (atCall s.inputFile.content s.foundMDAT s.posMDAT
      s.bytesToNextAtom s.offsetInFile))) : s.onFileUpdate = none := by
  rw [terminates_search_iff, ← Option.isSome_iff_exists, Option.not_isSome_iff_eq_none] at h
  unfold atCall at h
  rw [onFileUpdate]
  simp only [h, Option.bind_eq_bind, Option.bind_none]

/-- Both scans end if and only if the headers that the loop of `onFileUpdate` comes
to lead it on, and the walks of `parseParams:` get on. -/
theorem scans_end_iff (content : List Byte) (foundMDAT : Bool) (posMDAT : Nat)
    (bytesToNextAtom : Int) (offsetInFile : Nat) (params : List Byte) :
    (Terminates (search content (atCall content foundMDAT posMDAT bytesToNextAtom offsetInFile)) ∧
      Terminates (parseParams params)) ↔
      LeadOn content (atCall content foundMDAT posMDAT bytesToNextAtom offsetInFile) ∧
        ParamsGetOn params := by
  rw [terminates_search_iff, locate_isSome_iff, terminates_parseParams_iff]

/-- A `free` atom of the size 0, and sixteen bytes behind its header. -/
def zeroSize : List Byte := toBE 4 0 ++ toBE 4 0x66726565 ++ toBE 8 0 ++ toBE 8 0

/-- A `free` atom with a size of 64 bits, which is 0. -/
def zeroExtendedSize : List Byte := toBE 4 1 ++ toBE 4 0x66726565 ++ toBE 8 0

/-- The first turn leaves eight bytes less than none to the next atom. -/
theorem search_zeroSize (fuel : Nat) :
    search zeroSize (atCall zeroSize false 0 0 0) fuel = .error .running :=
  loop_running (t := ⟨false, 0, -8, 8, 16⟩) (fun _ => rfl) (fun _ => rfl) fuel

/-- The atom is passed over again and again. -/
theorem childOfType_zeroExtendedSize (fuel : Nat) :
    (movie zeroExtendedSize).childOfType zeroExtendedSize moov 0 fuel = .error .running :=
  loop_running (fun _ => rfl) (fun _ => rfl) fuel

/-- With a size of 0 in the file both scans run for ever. -/
theorem zero_sizes_run_forever :
    ¬ Terminates (search zeroSize (atCall zeroSize false 0 0 0)) ∧
      ¬ Terminates (parseParams zeroExtendedSize) := by
  constructor
  · exact not_terminates_of_running search_zeroSize
  · refine not_terminates_of_running ?_
    intro fuel
    rw [parseParams, childOfType_zeroExtendedSize]
    rfl

end AVEncoder

end Sogx
