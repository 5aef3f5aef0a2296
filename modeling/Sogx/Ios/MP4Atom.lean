import Sogx.Ios.AVEncoder
import Sogx.Lib.Loop

/-!
`MP4Atom.m`: walking over the children of an atom.

* `gives_walk_iff`: what a walk leaves with comes from the first child that it does
  not pass over.
* `terminates_walk_iff`: a walk returns if and only if it can read every header
  that it comes to, and no child that it passes over has the size 0.
* `Inside.childOfType_returns`: sizes of 32 bits never keep a walk from returning.
-/

namespace Sogx

open Sogx.Lib

/-- Offsets are in the file, and `childOffset` is `_nextChild`, an offset in the atom. -/
structure MP4Atom where
  offset : Nat
  length : Int
  type : BitVec 32
  childOffset : Nat
deriving DecidableEq, Repr

namespace MP4Atom

/-- `'uuid'`. -/
def uuid : BitVec 32 := 0x75756964#32

/-- `atomAt:size:type:inFile:`. The size is an `int`. -/
def atomAt (offset : Nat) (size : Int) (fourcc : BitVec 32) : MP4Atom where
  offset := offset
  length := (BitVec.ofInt 32 size).toInt
  type := fourcc
  childOffset := 0

/-- `readAt:size:`, with a negative size read as the large one that it converts to. -/
def readAt (content : List Byte) (offset : Nat) (length : Int) (a : MP4Atom) : List Byte :=
  (content.drop (a.offset + offset)).take (BitVec.ofInt 64 length).toNat

def setChildOffset (offset : Nat) (a : MP4Atom) : MP4Atom := { a with childOffset := offset }

/-- What the header of a child says: its size, its type, and how long the header is. -/
structure ChildHeader where
  len : Int
  fourcc : BitVec 32
  cHeader : Nat
deriving DecidableEq, Repr

/-- The header at an offset in the atom; `none` stands for reading behind the end
of the data. -/
def childHeader (content : List Byte) (pos : Nat) (a : MP4Atom) : Option ChildHeader := do
  let data := (content.drop (a.offset + pos)).take 8
  let len ← to_host data
  let fourcc ← to_host (data.drop 4)
  let uuidHeader := if fourcc = uuid then 16 else 0
  if len = 1 then
    let data := (content.drop (a.offset + pos + 8)).take 8
    let high ← to_host data
    let low ← to_host (data.drop 4)
    some ⟨((high.setWidth 64 <<< 32) + low.setWidth 64).toInt, fourcc, 8 + 8 + uuidHeader⟩
  else if len = 0 then some ⟨a.length - pos, fourcc, 8 + uuidHeader⟩
  else some ⟨len.toNat, fourcc, 8 + uuidHeader⟩

/-- The child that a header at an offset describes. -/
def childOf (pos : Nat) (h : ChildHeader) (a : MP4Atom) : MP4Atom :=
  atomAt (a.offset + pos + h.cHeader) (h.len - h.cHeader) h.fourcc

/-- `nextChild`, with the atom behind it; `none` also stands for the overflow of
an `int64_t`. -/
def nextChild (content : List Byte) (a : MP4Atom) : Option (Option MP4Atom × MP4Atom) :=
  if (a.childOffset : Int) ≤ a.length - 8 then
    match a.childHeader content a.childOffset with
    | none => none
    | some h =>
      if h.len < 0 then some (none, a)
      else if 2 ^ 63 ≤ h.len + a.childOffset then none
      else if a.length < h.len + a.childOffset then some (none, a)
      else
        some (some (a.childOf a.childOffset h),
          a.setChildOffset (a.childOffset + h.len.toNat))
  else some (none, a)

/-- A loop over the children: `look` says with `none` that a child is passed over. -/
def walkTurn {R : Type} (content : List Byte) (nothing : R) (look : MP4Atom → Fueled (Option R))
    (a : MP4Atom) : Fueled (Turn MP4Atom R) := fun fuel =>
  match a.nextChild content with
  | none => .error .fault
  | some (none, _) => .ok (.done nothing)
  | some (some child, a) => do
    match ← look child fuel with
    | none => .ok (.again a)
    | some r => .ok (.done r)

def walk {R : Type} (content : List Byte) (nothing : R) (look : MP4Atom → Fueled (Option R)) :
    MP4Atom → Fueled R :=
  loop (walkTurn content nothing look)

/-- The condition of the loop of `childOfType:startAt:`. -/
def lookForType (fourcc : BitVec 32) (child : MP4Atom) : Fueled (Option (Option MP4Atom)) :=
  fun _ => .ok (if child.type ≠ fourcc then none else some (some child))

def childOfType (content : List Byte) (fourcc : BitVec 32) (offset : Nat) (a : MP4Atom) :
    Fueled (Option MP4Atom) :=
  walk content none (lookForType fourcc) (a.setChildOffset offset)

/-! ### One child -/

/-- There is room for a header at `pos`. -/
def Room (a : MP4Atom) (pos : Nat) : Prop := (pos : Int) ≤ a.length - 8

/-- The header at `pos` can be read, and the place behind the child is a number of
64 bits. -/
def Readable (content : List Byte) (a : MP4Atom) (pos : Nat) : Prop :=
  ∃ h, a.childHeader content pos = some h ∧ (0 ≤ h.len → h.len + pos < 2 ^ 63)

/-- The child at `pos`, of `len` bytes with its header, lies in the atom. -/
def ChildAt (content : List Byte) (a : MP4Atom) (pos : Nat) (child : MP4Atom) (len : Nat) : Prop :=
  a.Room pos ∧ ∃ h, a.childHeader content pos = some h ∧ h.len = len ∧ h.len + pos < 2 ^ 63 ∧
    h.len + pos ≤ a.length ∧ child = a.childOf pos h

variable {content : List Byte}

theorem ChildAt.unique {a child child' : MP4Atom} {pos len len' : Nat}
    (h : a.ChildAt content pos child len) (h' : a.ChildAt content pos child' len') :
    child' = child ∧ len' = len := by
  obtain ⟨-, header, hread, hlen, -, -, rfl⟩ := h
  obtain ⟨-, header', hread', hlen', -, -, rfl⟩ := h'
  have hsame : header' = header := Option.some.inj (hread'.symm.trans hread)
  subst hsame
  exact ⟨rfl, Int.ofNat_inj.mp (hlen'.symm.trans hlen)⟩

theorem ChildAt.readable {a child : MP4Atom} {pos len : Nat} (h : a.ChildAt content pos child len) :
    a.Readable content pos := by
  obtain ⟨-, header, hread, -, hword, -, -⟩ := h
  exact ⟨header, hread, fun _ => hword⟩

/-- The reader fails where there is room for a header that cannot be read. -/
theorem nextChild_eq_none {a : MP4Atom} :
    a.nextChild content = none ↔ a.Room a.childOffset ∧ ¬ a.Readable content a.childOffset := by
  unfold nextChild Room Readable
  by_cases hroom : (a.childOffset : Int) ≤ a.length - 8
  · rw [if_pos hroom]
    cases hheader : a.childHeader content a.childOffset with
    | none => simp [hroom]
    | some header =>
      dsimp only
      split_ifs <;> simp <;> omega
  · rw [if_neg hroom]
    simp [hroom]

theorem ChildAt.nextChild_eq {a child : MP4Atom} {len : Nat}
    (h : a.ChildAt content a.childOffset child len) :
    a.nextChild content = some (some child, a.setChildOffset (a.childOffset + len)) := by
  obtain ⟨hroom, header, hheader, hlen, hword, hinside, rfl⟩ := h
  have hfour : (a.childOffset : Int) ≤ a.length - 8 := hroom
  unfold nextChild
  simp only [hheader]
  rw [if_pos hfour, if_neg (by omega), if_neg (by omega), if_neg (by omega), hlen, Int.toNat_natCast]

/-- The next child is the one at the offset. -/
theorem nextChild_eq_child {a child a' : MP4Atom} :
    a.nextChild content = some (some child, a') ↔
      ∃ len, a.ChildAt content a.childOffset child len ∧
        a' = a.setChildOffset (a.childOffset + len) := by
  constructor
  · intro h
    unfold nextChild at h
    by_cases hroom : (a.childOffset : Int) ≤ a.length - 8
    · rw [if_pos hroom] at h
      cases hheader : a.childHeader content a.childOffset with
      | none => simp [hheader] at h
      | some header =>
        simp only [hheader] at h
        split_ifs at h with hneg hword hbehind
        · cases h
        · cases h
        · cases h
          have hlen : header.len = header.len.toNat := by omega
          exact ⟨_, ⟨hroom, header, hheader, hlen, by omega, by omega, rfl⟩, rfl⟩
    · rw [if_neg hroom] at h
      cases h
  · rintro ⟨len, hchild, rfl⟩
    exact hchild.nextChild_eq

/-! ### Walks -/

section Walks

variable {R : Type} {nothing : R} {look : MP4Atom → Fueled (Option R)}

/-- The places that a walk comes to, when it passes over the children for which
`passed` holds. -/
inductive Meets (content : List Byte) (passed : MP4Atom → Prop) (a : MP4Atom) : Nat → Prop where
  | start : Meets content passed a a.childOffset
  | next {pos len : Nat} {child : MP4Atom} :
      Meets content passed a pos → a.ChildAt content pos child len → passed child →
      Meets content passed a (pos + len)

/-- A walk can read every header that it comes to, and gets on behind every child
that it passes over. -/
def Moves (content : List Byte) (passed : MP4Atom → Prop) (a : MP4Atom) : Prop :=
  ∀ pos, a.Meets content passed pos → a.Room pos →
    a.Readable content pos ∧ ∀ child len, a.ChildAt content pos child len → passed child → 0 < len

theorem steady_walkTurn (hlook : ∀ child, Steady (look child)) (a : MP4Atom) :
    Steady (walkTurn content nothing look a) := by
  unfold walkTurn
  cases a.nextChild content with
  | none => exact steady_const _
  | some next =>
    obtain ⟨child | child, a'⟩ := next
    · exact steady_const _
    · refine Steady.bind (hlook child) ?_
      intro found
      cases found with
      | none => exact steady_const _
      | some r => exact steady_const _

theorem steady_walk (hlook : ∀ child, Steady (look child)) (a : MP4Atom) :
    Steady (walk content nothing look a) :=
  steady_loop (steady_walkTurn hlook) a

/-- What a turn does with the child that it is at. -/
theorem gives_walkTurn_child (hlook : ∀ child, Steady (look child)) {a child : MP4Atom} {len : Nat}
    (h : a.ChildAt content a.childOffset child len) {turn : Turn MP4Atom R} :
    Gives (walkTurn content nothing look a) turn ↔
      (Gives (look child) none ∧ turn = .again (a.setChildOffset (a.childOffset + len))) ∨
        ∃ r, Gives (look child) (some r) ∧ turn = .done r := by
  unfold walkTurn
  simp only [h.nextChild_eq]
  rw [gives_bind_iff (hlook child) (by rintro (_ | r) <;> exact steady_const _)]
  constructor
  · rintro ⟨_ | r, hfound, hturn⟩
    · exact .inl ⟨hfound, (Except.ok.inj (gives_const_iff.mp hturn)).symm⟩
    · exact .inr ⟨r, hfound, (Except.ok.inj (gives_const_iff.mp hturn)).symm⟩
  · rintro (⟨hfound, rfl⟩ | ⟨r, hfound, rfl⟩)
    · exact ⟨none, hfound, gives_const_iff.mpr rfl⟩
    · exact ⟨some r, hfound, gives_const_iff.mpr rfl⟩

/-- A turn that has no child to look at. -/
theorem gives_walkTurn_nothing {a : MP4Atom}
    (h : ∀ child len, ¬ a.ChildAt content a.childOffset child len) {turn : Turn MP4Atom R} :
    Gives (walkTurn content nothing look a) turn ↔
      (a.Room a.childOffset → a.Readable content a.childOffset) ∧ turn = .done nothing := by
  unfold walkTurn
  cases hnext : a.nextChild content with
  | none =>
    have hfault := nextChild_eq_none.mp hnext
    simp [gives_const_iff, hfault]
  | some next =>
    obtain ⟨child | child, a'⟩ := next
    · have hread : a.Room a.childOffset → a.Readable content a.childOffset := by
        intro hroom
        by_contra hfault
        rw [nextChild_eq_none.mpr ⟨hroom, hfault⟩] at hnext
        cases hnext
      rw [gives_const_iff]
      constructor
      · intro h
        cases h
        exact ⟨hread, rfl⟩
      · rintro ⟨-, rfl⟩
        rfl
    · obtain ⟨len, hchild, -⟩ := nextChild_eq_child.mp hnext
      exact absurd hchild (h child len)

/-- The walk goes on behind a child that is passed over. -/
theorem again_walkTurn_iff (hlook : ∀ child, Steady (look child)) {a t : MP4Atom} :
    Again (walkTurn content nothing look) a t ↔
      ∃ child len, a.ChildAt content a.childOffset child len ∧ Gives (look child) none ∧
        t = a.setChildOffset (a.childOffset + len) := by
  constructor
  · intro h
    by_cases hchild : ∃ child len, a.ChildAt content a.childOffset child len
    · obtain ⟨child, len, hchild⟩ := hchild
      rcases (gives_walkTurn_child hlook hchild).mp h with ⟨hpassed, hturn⟩ | ⟨r, -, hturn⟩
      · exact ⟨child, len, hchild, hpassed, Turn.again.inj hturn⟩
      · cases hturn
    · have hnothing := (gives_walkTurn_nothing (by simpa using hchild)).mp h
      cases hnothing.2
  · rintro ⟨child, len, hchild, hpassed, rfl⟩
    exact (gives_walkTurn_child hlook hchild).mpr (.inl ⟨hpassed, rfl⟩)

/-- The states of a walk differ in where it is. -/
theorem reaches_iff_meets (hlook : ∀ child, Steady (look child)) {a t : MP4Atom} :
    Relation.ReflTransGen (Again (walkTurn content nothing look)) a t ↔
      ∃ pos, a.Meets content (fun child => Gives (look child) none) pos ∧
        t = a.setChildOffset pos := by
  constructor
  · intro h
    induction h with
    | refl => exact ⟨a.childOffset, .start, rfl⟩
    | tail _ hagain ih =>
      obtain ⟨pos, hmeets, rfl⟩ := ih
      obtain ⟨child, len, hchild, hpassed, rfl⟩ := (again_walkTurn_iff hlook).mp hagain
      exact ⟨pos + len, .next hmeets hchild hpassed, rfl⟩
  · rintro ⟨pos, hmeets, rfl⟩
    induction hmeets with
    | start => exact .refl
    | @next pos len child _ hchild hpassed ih =>
      exact ih.tail ((again_walkTurn_iff hlook).mpr ⟨child, len, hchild, hpassed, rfl⟩)

/-- A walk that leaves with a result has come to the child that it looked at then. -/
theorem gives_walk_iff (hlook : ∀ child, Steady (look child)) {a : MP4Atom} {r : R}
    (hr : r ≠ nothing) :
    Gives (walk content nothing look a) r ↔
      ∃ pos child len, a.Meets content (fun child => Gives (look child) none) pos ∧
        a.ChildAt content pos child len ∧ Gives (look child) (some r) := by
  unfold walk
  rw [gives_loop_iff (steady_walkTurn hlook)]
  constructor
  · rintro ⟨t, hreach, hdone⟩
    obtain ⟨pos, hmeets, rfl⟩ := (reaches_iff_meets hlook).mp hreach
    by_cases hchild : ∃ child len, a.ChildAt content pos child len
    · obtain ⟨child, len, hchild⟩ := hchild
      rcases (gives_walkTurn_child (a := a.setChildOffset pos) hlook hchild).mp hdone with
        ⟨-, hturn⟩ | ⟨r, hfound, hturn⟩
      · cases hturn
      · cases hturn
        exact ⟨pos, child, len, hmeets, hchild, hfound⟩
    · have hnot : ∀ child len, ¬ a.ChildAt content pos child len := by simpa using hchild
      have hnothing := (gives_walkTurn_nothing (a := a.setChildOffset pos) hnot).mp hdone
      exact absurd (Turn.done.inj hnothing.2) hr
  · rintro ⟨pos, child, len, hmeets, hchild, hfound⟩
    refine ⟨a.setChildOffset pos, (reaches_iff_meets hlook).mpr ⟨pos, hmeets, rfl⟩, ?_⟩
    exact (gives_walkTurn_child (a := a.setChildOffset pos) hlook hchild).mpr (.inr ⟨r, hfound, rfl⟩)

/-- A turn ends if the header can be read and looking into the child ends. -/
theorem terminates_walkTurn_iff (hlook : ∀ child, Steady (look child)) {a : MP4Atom} :
    Terminates (walkTurn content nothing look a) ↔
      (a.Room a.childOffset → a.Readable content a.childOffset) ∧
        ∀ child len, a.ChildAt content a.childOffset child len → Terminates (look child) := by
  by_cases hchild : ∃ child len, a.ChildAt content a.childOffset child len
  · obtain ⟨child, len, hchild⟩ := hchild
    have hread : a.Readable content a.childOffset := hchild.readable
    simp only [Terminates, gives_walkTurn_child hlook hchild]
    constructor
    · rintro ⟨turn, hturn⟩
      refine ⟨fun _ => hread, ?_⟩
      intro child' len' hchild'
      rw [(hchild.unique hchild').1]
      rcases hturn with ⟨hpassed, -⟩ | ⟨r, hr, -⟩
      · exact ⟨_, hpassed⟩
      · exact ⟨_, hr⟩
    · rintro ⟨-, hlooks⟩
      obtain ⟨found, hfound⟩ := hlooks child len hchild
      cases found with
      | none => exact ⟨_, .inl ⟨hfound, rfl⟩⟩
      | some r => exact ⟨_, .inr ⟨r, hfound, rfl⟩⟩
  · have hnot : ∀ child len, ¬ a.ChildAt content a.childOffset child len := by simpa using hchild
    simp only [Terminates, gives_walkTurn_nothing hnot]
    constructor
    · rintro ⟨turn, hread, -⟩
      exact ⟨hread, fun child len hat => absurd hat (hnot child len)⟩
    · rintro ⟨hread, -⟩
      exact ⟨_, hread, rfl⟩

/-- How many bytes are behind the place that a walk is at. -/
def behind (a : MP4Atom) : Nat := (a.length - a.childOffset).toNat

/-- A turn that goes on stays where it is or comes nearer to the end. -/
theorem again_lower (hlook : ∀ child, Steady (look child)) {a t : MP4Atom}
    (h : Again (walkTurn content nothing look) a t) : t = a ∨ t.behind < a.behind := by
  obtain ⟨child, len, hchild, -, rfl⟩ := (again_walkTurn_iff hlook).mp h
  have hroom : (a.childOffset : Int) ≤ a.length - 8 := hchild.1
  cases len with
  | zero => exact .inl rfl
  | succ len =>
    right
    rw [behind, behind, setChildOffset]
    dsimp only
    omega

/-- A walk returns if and only if it `Moves` and what it does with each child
returns. -/
theorem terminates_walk_iff (hlook : ∀ child, Steady (look child)) {a : MP4Atom} :
    Terminates (walk content nothing look a) ↔
      a.Moves content (fun child => Gives (look child) none) ∧
        ∀ pos child len, a.Meets content (fun child => Gives (look child) none) pos →
          a.ChildAt content pos child len → Terminates (look child) := by
  unfold walk
  rw [terminates_loop_iff (steady_walkTurn hlook) behind (fun _ _ => again_lower hlook)]
  constructor
  · intro h
    have hplace : ∀ pos, a.Meets content (fun child => Gives (look child) none) pos →
        Terminates (walkTurn content nothing look (a.setChildOffset pos)) ∧
          ¬ Again (walkTurn content nothing look) (a.setChildOffset pos) (a.setChildOffset pos) :=
      fun pos hmeets => h _ ((reaches_iff_meets hlook).mpr ⟨pos, hmeets, rfl⟩)
    constructor
    · intro pos hmeets hroom
      obtain ⟨hturn, hmoves⟩ := hplace pos hmeets
      refine ⟨((terminates_walkTurn_iff hlook).mp hturn).1 hroom, ?_⟩
      intro child len hchild hpassed
      refine Nat.pos_of_ne_zero ?_
      rintro rfl
      exact hmoves ((again_walkTurn_iff hlook).mpr ⟨child, 0, hchild, hpassed, rfl⟩)
    · intro pos child len hmeets hchild
      exact ((terminates_walkTurn_iff hlook).mp (hplace pos hmeets).1).2 child len hchild
  · rintro ⟨hmoves, hlooks⟩ t hreach
    obtain ⟨pos, hmeets, rfl⟩ := (reaches_iff_meets hlook).mp hreach
    constructor
    · refine (terminates_walkTurn_iff hlook).mpr ⟨?_, ?_⟩
      · exact fun hroom => (hmoves pos hmeets hroom).1
      · exact fun child len hchild => hlooks pos child len hmeets hchild
    · intro hsame
      obtain ⟨child, len, hchild, hpassed, hback⟩ := (again_walkTurn_iff hlook).mp hsame
      have hpos := (hmoves pos hmeets hchild.1).2 child len hchild hpassed
      have hoffset : pos = pos + len := congrArg MP4Atom.childOffset hback
      omega

end Walks

/-! ### `childOfType` -/

theorem steady_lookForType (fourcc : BitVec 32) (child : MP4Atom) :
    Steady (lookForType fourcc child) := steady_const _

theorem gives_lookForType_none {fourcc : BitVec 32} {child : MP4Atom} :
    Gives (lookForType fourcc child) none ↔ child.type ≠ fourcc := by
  unfold lookForType
  rw [gives_const_iff]
  split_ifs with h <;> simp [h]

/-- The atom that is found is the one of this type. -/
theorem gives_lookForType_some {fourcc : BitVec 32} {child : MP4Atom} {r : Option MP4Atom} :
    Gives (lookForType fourcc child) (some r) ↔ child.type = fourcc ∧ r = some child := by
  unfold lookForType
  rw [gives_const_iff]
  split_ifs with h <;> simp_all [eq_comm]

theorem steady_childOfType (content : List Byte) (fourcc : BitVec 32) (offset : Nat) (a : MP4Atom) :
    Steady (a.childOfType content fourcc offset) :=
  steady_walk (steady_lookForType fourcc) _

/-- The walk of `childOfType:startAt:` over the children of an atom. -/
def MovesToType (content : List Byte) (fourcc : BitVec 32) (offset : Nat) (a : MP4Atom) : Prop :=
  (a.setChildOffset offset).Moves content (·.type ≠ fourcc)

/-- The first child of a type. -/
def FindsType (content : List Byte) (fourcc : BitVec 32) (offset : Nat) (a child : MP4Atom) : Prop :=
  child.type = fourcc ∧ ∃ pos len, (a.setChildOffset offset).Meets content (·.type ≠ fourcc) pos ∧
    a.ChildAt content pos child len

theorem passed_lookForType (fourcc : BitVec 32) :
    (fun child => Gives (lookForType fourcc child) none) =
      fun child : MP4Atom => child.type ≠ fourcc :=
  funext fun _ => propext gives_lookForType_none

/-- The first child of the type is found. -/
theorem gives_childOfType_iff {fourcc : BitVec 32} {offset : Nat} {a child : MP4Atom} :
    Gives (a.childOfType content fourcc offset) (some child) ↔
      a.FindsType content fourcc offset child := by
  unfold childOfType FindsType
  rw [gives_walk_iff (steady_lookForType fourcc) (Option.some_ne_none child),
    passed_lookForType]
  constructor
  · rintro ⟨pos, child', len, hmeets, hchild, hfound⟩
    obtain ⟨htype, hsame⟩ := gives_lookForType_some.mp hfound
    cases hsame
    exact ⟨htype, pos, len, hmeets, hchild⟩
  · rintro ⟨htype, pos, len, hmeets, hchild⟩
    exact ⟨pos, child, len, hmeets, hchild, gives_lookForType_some.mpr ⟨htype, rfl⟩⟩

/-- The search for a type ends if and only if it gets on. -/
theorem terminates_childOfType_iff {fourcc : BitVec 32} {offset : Nat} {a : MP4Atom} :
    Terminates (a.childOfType content fourcc offset) ↔ a.MovesToType content fourcc offset := by
  unfold childOfType MovesToType
  rw [terminates_walk_iff (steady_lookForType fourcc), passed_lookForType]
  constructor
  · exact fun h => h.1
  · intro hmoves
    exact ⟨hmoves, fun _ _ _ _ _ => ⟨_, 0, rfl⟩⟩

/-! ### Sizes of 32 bits -/

/-- The header at `pos` says that a size of 64 bits follows. -/
def Extended (content : List Byte) (a : MP4Atom) (pos : Nat) : Prop :=
  to_host ((content.drop (a.offset + pos)).take 8) = some 1

/-- An atom that lies in the file. -/
structure Inside (content : List Byte) (a : MP4Atom) : Prop where
  file : a.offset + a.length ≤ content.length
  int : a.length < 2 ^ 31

theorem to_host_of_length {p : List Byte} (h : 4 ≤ p.length) : ∃ word, to_host p = some word := by
  match p, h with
  | p0 :: p1 :: p2 :: p3 :: rest, _ => exact ⟨_, rfl⟩

theorem toInt_ofInt_le {size : Int} (h : -2 ^ 31 ≤ size) :
    (BitVec.ofInt 32 size).toInt ≤ size := by
  rw [BitVec.toInt_ofInt, Int.bmod_def]
  split_ifs <;> omega

/-- An atom that does not run over the end of the file is inside it. -/
theorem inside_atomAt {offset : Nat} {size : Int} {fourcc : BitVec 32}
    (hsize : -2 ^ 31 ≤ size) (h : offset + size ≤ content.length) :
    (atomAt offset size fourcc).Inside content := by
  constructor
  · exact (Int.add_le_add_left (toInt_ofInt_le hsize) _).trans h
  · exact BitVec.toInt_lt

theorem childHeader_cHeader_le {a : MP4Atom} {pos : Nat} {h : ChildHeader}
    (hheader : a.childHeader content pos = some h) : h.cHeader ≤ 32 := by
  unfold childHeader at hheader
  simp only [Option.bind_eq_bind, Option.bind_eq_some_iff] at hheader
  obtain ⟨len, -, fourcc, -, hheader⟩ := hheader
  have huuid : (if fourcc = uuid then 16 else 0) ≤ 16 := by split_ifs <;> omega
  split at hheader
  · simp only [Option.bind_eq_some_iff, Option.some.injEq] at hheader
    obtain ⟨high, -, low, -, rfl⟩ := hheader
    dsimp only
    omega
  · split at hheader
    · cases hheader
      dsimp only
      omega
    · cases hheader
      dsimp only
      omega

/-- A child of an atom that is inside the file is inside it. -/
theorem Inside.child {a child : MP4Atom} (h : a.Inside content) {pos len : Nat}
    (hchild : a.ChildAt content pos child len) : child.Inside content := by
  obtain ⟨hroom, header, hheader, hlen, -, hbehind, rfl⟩ := hchild
  have hsmall := childHeader_cHeader_le hheader
  have hfile := h.file
  refine inside_atomAt (by omega) ?_
  push_cast
  omega

/-- A header without a size of 64 bits can be read, and its child has a size. -/
theorem Inside.plain {a : MP4Atom} (h : a.Inside content) {pos : Nat} (hroom : a.Room pos)
    (hplain : ¬ a.Extended content pos) :
    ∃ header, a.childHeader content pos = some header ∧ 0 < header.len ∧
      header.len + pos < 2 ^ 63 := by
  have hfour : (pos : Int) ≤ a.length - 8 := hroom
  have hfile := h.file
  have hint := h.int
  obtain ⟨len, hlen⟩ := to_host_of_length (p := (content.drop (a.offset + pos)).take 8)
    (by rw [List.length_take, List.length_drop]; omega)
  obtain ⟨fourcc, hfourcc⟩ := to_host_of_length (p := ((content.drop (a.offset + pos)).take 8).drop 4)
    (by rw [List.length_drop, List.length_take, List.length_drop]; omega)
  have hne : len ≠ 1 := by
    rintro rfl
    exact hplain hlen
  unfold childHeader
  simp only [hlen, hfourcc, Option.bind_eq_bind, Option.bind_some, if_neg hne]
  by_cases hzero : len = 0
  · rw [if_pos hzero]
    exact ⟨_, rfl, by dsimp only; omega, by dsimp only; omega⟩
  · rw [if_neg hzero]
    have hpos : 0 < len.toNat := Nat.pos_of_ne_zero fun hnone => hzero (BitVec.eq_of_toNat_eq hnone)
    have hword := len.isLt
    exact ⟨_, rfl, by dsimp only; omega, by dsimp only; omega⟩

/-- Whatever the sizes of 32 bits are, a walk gets on. -/
theorem Inside.moves {a : MP4Atom} (h : a.Inside content) {passed : MP4Atom → Prop}
    (hplain : ∀ pos, a.Meets content passed pos → ¬ a.Extended content pos) :
    a.Moves content passed := by
  intro pos hmeets hroom
  obtain ⟨header, hheader, hpos, hword⟩ := h.plain hroom (hplain pos hmeets)
  refine ⟨⟨header, hheader, fun _ => hword⟩, ?_⟩
  rintro child len ⟨-, header', hheader', hlen, -⟩ -
  rw [Option.some.inj (hheader'.symm.trans hheader)] at hlen
  omega

/-- The first child of a type is looked for in finitely many steps, unless a size
of 64 bits is met. -/
theorem Inside.childOfType_returns {a : MP4Atom} (h : a.Inside content) {fourcc : BitVec 32}
    {offset : Nat}
    (hplain : ∀ pos, (a.setChildOffset offset).Meets content (·.type ≠ fourcc) pos →
      ¬ a.Extended content pos) :
    Terminates (a.childOfType content fourcc offset) := by
  have hinside : (a.setChildOffset offset).Inside content := ⟨h.file, h.int⟩
  exact terminates_childOfType_iff.mpr (hinside.moves hplain)

end MP4Atom

end Sogx
