import Sogx.Ios.SeqParamSet

/-!
`AVEncoder.mm`: from NAL units to frames.

`onNALU:` collects units until one begins a new frame, and `onEncodedFrame`
hands the frame over with the next of the times that were queued.
-/

namespace Sogx

open Sogx.Lib Sogx.Lib.Bitstream
open NALUnit (Stop)

/-- A NAL unit as `readAndDeliver:` takes it from a file: at least the byte with
its type, and a length of 32 bits. -/
structure Nalu where
  first : Byte
  rest : List Byte
  length_lt : rest.length + 1 < 2 ^ 32

namespace Nalu

def data (n : Nalu) : List Byte := n.first :: n.rest

def idc (n : Nalu) : Nat := (n.first &&& 0x60#8).toNat

def naltype (n : Nalu) : Nat := (n.first &&& 0x1f#8).toNat

end Nalu

/-- What the encoder needs of times, which are `double`s: the ones it starts
from, `pts < 0`, and `pts - _firstpts < 1`. -/
structure Clock (Pts : Type) where
  zero : Pts
  minusOne : Pts
  negative : Pts → Bool
  inFirstSecond : Pts → Pts → Bool

/-- The part of `AVEncoder` that makes frames. `output` are the calls of the
output block. -/
structure Frames (Pts : Type) where
  prev_nal_idc : Nat
  prev_nal_type : Nat
  pendingNALU : Option (List Nalu)
  times : List Pts
  firstpts : Pts
  bitspersecond : Int
  output : List (List Nalu × Pts)

namespace Frames

variable {Pts : Type} (clock : Clock Pts)

/-- `encodeWithBlock:onParams:`. -/
def encodeWithBlock : Frames Pts where
  prev_nal_idc := 0
  prev_nal_type := 0
  pendingNALU := none
  times := []
  firstpts := clock.minusOne
  bitspersecond := 0
  output := []

/-- The bits of a frame, as the `int` loop adds them up. -/
def bits (pending : List Nalu) : Int :=
  int (pending.foldl (fun bytes data => int (bytes + data.data.length)) 0 * 8)

def onEncodedFrame (f : Frames Pts) (pending : List Nalu) : Frames Pts :=
  match f.times with
  | pts :: times =>
    let firstpts := if clock.negative f.firstpts then pts else f.firstpts
    let bitspersecond :=
      if clock.inFirstSecond pts firstpts then int (f.bitspersecond + bits pending)
      else f.bitspersecond
    { f with times, firstpts, bitspersecond, output := f.output ++ [(pending, pts)] }
  | [] => { f with output := f.output ++ [(pending, clock.zero)] }

/-- The boundary test of `onNALU:`; only the last rule looks into the unit. -/
def bNew (fuel prev_nal_idc prev_nal_type : Nat) (nalu : Nalu) : Except Stop Bool := do
  if nalu.idc ≠ prev_nal_idc ∧ nalu.idc * prev_nal_idc = 0 then
    return true
  else if nalu.naltype ≠ prev_nal_type ∧ (nalu.naltype = 5 ∨ prev_nal_type = 5) then
    return true
  else if 1 ≤ nalu.naltype ∧ nalu.naltype ≤ 5 then
    let (first_mb, _) ← SeqParamSet.firstMb.run NALUnit.reader fuel (.ofData nalu.data)
    return first_mb = 0
  else return false

/-- The end of `onNALU:`, with the units the new one joins. -/
def add (nalu : Nalu) (pending : List Nalu) (f : Frames Pts) : Frames Pts :=
  { f with
    prev_nal_type := nalu.naltype
    prev_nal_idc := nalu.idc
    pendingNALU := some (pending ++ [nalu]) }

def onNALU (fuel : Nat) (nalu : Nalu) (f : Frames Pts) : Except Stop (Frames Pts) :=
  match f.pendingNALU with
  | none => return f.add nalu []
  | some pending => do
    if ← bNew fuel f.prev_nal_idc f.prev_nal_type nalu then
      return (onEncodedFrame clock f pending).add nalu []
    else
      return f.add nalu pending

/-- One unit after the other. -/
def feed (fuel : Nat) : List Nalu → Frames Pts → Except Stop (Frames Pts)
  | [], f => .ok f
  | nalu :: nalus, f => onNALU clock fuel nalu f >>= feed fuel nalus

/-! ### The boundary test -/

/-- A slice: its payload begins with the code of `first_mb_in_slice`. -/
structure Slice where
  nalu : Nalu
  type_eq : nalu.naltype = 1 ∨ nalu.naltype = 5
  first_mb : Nat
  first_mb_lt : first_mb + 1 < 2 ^ 32
  coded : ∃ s, streamOf (payload 0 nalu.data) =
    wordBits 8 nalu.first.toNat ++ₛ (ueBits first_mb ++ₛ s)

/-- Fewer than 2^31 bytes, so that a reader can look into it. -/
def Slice.Short (s : Slice) : Prop := s.nalu.data.length < 2 ^ 31

/-- The first two rules, which need not look into a unit. -/
def Differs (prev_nal_idc prev_nal_type : Nat) (nalu : Nalu) : Prop :=
  (nalu.idc ≠ prev_nal_idc ∧ nalu.idc * prev_nal_idc = 0) ∨
    (nalu.naltype ≠ prev_nal_type ∧ (nalu.naltype = 5 ∨ prev_nal_type = 5))

theorem int_eq_zero_iff {n : Nat} (h : n < 2 ^ 32) : int n = 0 ↔ n = 0 := by
  rw [int, BitVec.toInt_ofInt, Int.bmod_def]
  split
  · omega
  · omega

theorem eval_firstMb {s : Slice} (h : s.Short) :
    ∃ c, SeqParamSet.firstMb.eval NALUnit.skip (NALUnit.ofData s.nalu.data).cursor =
      some (int s.first_mb, c) := by
  obtain ⟨t, ht⟩ := s.coded
  have hskip : Program.eval NALUnit.skip (Program.skipBits 8)
      (.behind 0 (wordBits 8 s.nalu.first.toNat ++ₛ (ueBits s.first_mb ++ₛ t))) =
        some ((), .behind 8 (ueBits s.first_mb ++ₛ t)) := by
    rw [Program.eval_skipBits]
    change some ((), NALUnit.skip 8 ⟨0, _⟩) = _
    rw [NALUnit.skip_eight, drop_append_of_length _ (length_wordBits 8 _)]
    rfl
  rw [NALUnit.cursor_ofData h, ht, SeqParamSet.firstMb, Program.eval_bind_of hskip,
    Program.eval_bind_of (Program.eval_getUE_append s.first_mb_lt 8 t)]
  exact ⟨_, rfl⟩

/-- The number of the first macroblock is read by the reader of the app, with 32 turns for the
code. -/
theorem firstMb_run_short {s : Slice} (h : s.Short) :
    ∃ n, SeqParamSet.firstMb.run NALUnit.reader 32 (.ofData s.nalu.data) =
      .ok (int s.first_mb, n) := by
  obtain ⟨c, hc⟩ := eval_firstMb h
  exact Program.run_of_eval NALUnit.follows hc

/-- What the look into a slice finds is its `first_mb_in_slice`, and into a long
one there is no look. -/
theorem firstMb_run {s : Slice} {fuel : Nat} {first_mb : Int} {n : NALUnit}
    (h : SeqParamSet.firstMb.run NALUnit.reader fuel (.ofData s.nalu.data) = .ok (first_mb, n)) :
    s.Short ∧ first_mb = int s.first_mb := by
  have heval := Program.eval_of_run NALUnit.follows h
  have hshort : s.Short := by
    by_contra hlong
    have hcursor := NALUnit.cursor_ofData_long (not_lt.mp hlong) s.nalu.length_lt
    have hone := (SeqParamSet.firstMb_returns_iff s.nalu.data).mp ⟨fuel, _, h⟩
    have hdrop : (Cursor.behind 0 zeros).bits.drop 8 = zeros := Stream'.drop_const 8 false
    rw [hcursor, hdrop] at hone
    exact true_not_mem_zeros 32 hone
  obtain ⟨c, hc⟩ := eval_firstMb hshort
  rw [hc] at heval
  exact ⟨hshort, (Prod.mk.inj (Option.some.inj heval)).1.symm⟩

/-- The boundary test on a slice, when it comes to an end. -/
theorem bNew_slice {s : Slice} {fuel idc type : Nat} {new : Bool}
    (h : bNew fuel idc type s.nalu = .ok new) :
    (Differs idc type s.nalu ∨ s.Short) ∧
      (new = true ↔ Differs idc type s.nalu ∨ s.first_mb = 0) := by
  unfold bNew at h
  by_cases hidc : s.nalu.idc ≠ idc ∧ s.nalu.idc * idc = 0
  · rw [if_pos hidc] at h
    obtain rfl := Except.ok.inj h
    exact ⟨.inl (.inl hidc), fun _ => .inl (.inl hidc), fun _ => rfl⟩
  · rw [if_neg hidc] at h
    by_cases htype : s.nalu.naltype ≠ type ∧ (s.nalu.naltype = 5 ∨ type = 5)
    · rw [if_pos htype] at h
      obtain rfl := Except.ok.inj h
      exact ⟨.inl (.inr htype), fun _ => .inl (.inr htype), fun _ => rfl⟩
    · have hvcl : 1 ≤ s.nalu.naltype ∧ s.nalu.naltype ≤ 5 := by
        rcases s.type_eq with h1 | h5
        · omega
        · omega
      have hsame : ¬ Differs idc type s.nalu := by
        rintro (h1 | h2)
        · exact hidc h1
        · exact htype h2
      rw [if_neg htype, if_pos hvcl] at h
      cases hrun : SeqParamSet.firstMb.run NALUnit.reader fuel (.ofData s.nalu.data) with
      | error e =>
        rw [hrun] at h
        cases h
      | ok r =>
        rw [hrun] at h
        obtain ⟨hshort, hmb⟩ := firstMb_run hrun
        have hlt := s.first_mb_lt
        have hnew : decide (r.1 = 0) = new := Except.ok.inj h
        rw [← hnew, decide_eq_true_eq, hmb, int_eq_zero_iff (by omega)]
        exact ⟨.inr hshort, fun hzero => .inr hzero, fun hor => hor.resolve_left hsame⟩

/-- Whether a unit begins a frame is decided without the number, or it can be read. -/
theorem bNew_total {s : Slice} {idc type : Nat} (h : Differs idc type s.nalu ∨ s.Short) :
    ∃ new, bNew 32 idc type s.nalu = .ok new := by
  unfold bNew
  by_cases hidc : s.nalu.idc ≠ idc ∧ s.nalu.idc * idc = 0
  · exact ⟨true, if_pos hidc⟩
  · rw [if_neg hidc]
    by_cases htype : s.nalu.naltype ≠ type ∧ (s.nalu.naltype = 5 ∨ type = 5)
    · exact ⟨true, if_pos htype⟩
    · have hshort : s.Short := by
        rcases h with (h1 | h2) | hshort
        · exact absurd h1 hidc
        · exact absurd h2 htype
        · exact hshort
      have hvcl : 1 ≤ s.nalu.naltype ∧ s.nalu.naltype ≤ 5 := by
        rcases s.type_eq with h1 | h5
        · omega
        · omega
      obtain ⟨n, hrun⟩ := firstMb_run_short hshort
      rw [if_neg htype, if_pos hvcl, hrun]
      exact ⟨_, rfl⟩

/-! ### One unit -/

variable {clock}

/-- A frame goes out with the units that were pending. -/
theorem output_onEncodedFrame (f : Frames Pts) (pending : List Nalu) :
    (onEncodedFrame clock f pending).output.map Prod.fst = f.output.map Prod.fst ++ [pending] := by
  unfold onEncodedFrame
  split
  · exact List.map_append
  · exact List.map_append

/-- With units pending a new frame lets them out, and any other unit joins them. -/
theorem onNALU_of_pending {f : Frames Pts} {pending : List Nalu} (h : f.pendingNALU = some pending)
    (fuel : Nat) (nalu : Nalu) :
    onNALU clock fuel nalu f = (bNew fuel f.prev_nal_idc f.prev_nal_type nalu).map fun new =>
      if new then (onEncodedFrame clock f pending).add nalu [] else f.add nalu pending := by
  rw [onNALU, h]
  cases bNew fuel f.prev_nal_idc f.prev_nal_type nalu with
  | error e => rfl
  | ok new =>
    cases new with
    | false => rfl
    | true => rfl

/-- The first unit is pending. -/
theorem onNALU_of_none {f : Frames Pts} (h : f.pendingNALU = none) (fuel : Nat) (nalu : Nalu) :
    onNALU clock fuel nalu f = .ok (f.add nalu []) := by
  rw [onNALU, h]
  rfl

/-- What is pending ends with the unit that came last. -/
theorem pending_onNALU {fuel : Nat} {nalu : Nalu} {f f' : Frames Pts}
    (h : onNALU clock fuel nalu f = .ok f') :
    ∃ pending, f'.pendingNALU = some (pending ++ [nalu]) := by
  cases hp : f.pendingNALU with
  | none =>
    rw [onNALU_of_none hp] at h
    rw [← Except.ok.inj h]
    exact ⟨[], rfl⟩
  | some pending =>
    rw [onNALU_of_pending hp] at h
    obtain ⟨new, -, rfl⟩ := SeqParamSet.map_eq_ok.mp h
    cases new with
    | true => exact ⟨[], rfl⟩
    | false => exact ⟨pending, rfl⟩

/-- Frames that were handed over stay handed over. -/
theorem output_onNALU {fuel : Nat} {nalu : Nalu} {f f' : Frames Pts}
    (h : onNALU clock fuel nalu f = .ok f') :
    f.output.map Prod.fst <+: f'.output.map Prod.fst := by
  cases hp : f.pendingNALU with
  | none =>
    rw [onNALU_of_none hp] at h
    rw [← Except.ok.inj h]
    exact List.prefix_refl _
  | some pending =>
    rw [onNALU_of_pending hp] at h
    obtain ⟨new, -, rfl⟩ := SeqParamSet.map_eq_ok.mp h
    cases new with
    | true =>
      change _ <+: (onEncodedFrame clock f pending).output.map Prod.fst
      rw [output_onEncodedFrame]
      exact List.prefix_append _ _
    | false => exact List.prefix_refl _

theorem feed_cons_ok {fuel : Nat} {nalu : Nalu} {nalus : List Nalu} {f f' : Frames Pts} :
    feed clock fuel (nalu :: nalus) f = .ok f' ↔
      ∃ g, onNALU clock fuel nalu f = .ok g ∧ feed clock fuel nalus g = .ok f' := by
  rw [feed]
  cases onNALU clock fuel nalu f with
  | error e => simp [bind, Except.bind]
  | ok g => simp [bind, Except.bind]

/-- Units can be fed in two parts. -/
theorem feed_append_ok {fuel : Nat} {xs ys : List Nalu} {f f' : Frames Pts} :
    feed clock fuel (xs ++ ys) f = .ok f' ↔
      ∃ g, feed clock fuel xs f = .ok g ∧ feed clock fuel ys g = .ok f' := by
  induction xs generalizing f with
  | nil =>
    constructor
    · intro h
      exact ⟨f, rfl, h⟩
    · rintro ⟨g, hg, h⟩
      obtain rfl := Except.ok.inj hg
      exact h
  | cons x xs ih =>
    rw [List.cons_append, feed_cons_ok]
    constructor
    · rintro ⟨g, hx, h⟩
      obtain ⟨g', hxs, hys⟩ := ih.mp h
      exact ⟨g', feed_cons_ok.mpr ⟨g, hx, hxs⟩, hys⟩
    · rintro ⟨g', hxs, hys⟩
      obtain ⟨g, hx, hxs⟩ := feed_cons_ok.mp hxs
      exact ⟨g, hx, ih.mpr ⟨g', hxs, hys⟩⟩

/-- What went out stays at the front. -/
theorem output_feed {fuel : Nat} {nalus : List Nalu} {f f' : Frames Pts}
    (h : feed clock fuel nalus f = .ok f') :
    f.output.map Prod.fst <+: f'.output.map Prod.fst := by
  induction nalus generalizing f with
  | nil => rw [← Except.ok.inj h]
  | cons nalu nalus ih =>
    obtain ⟨g, hone, hrest⟩ := feed_cons_ok.mp h
    exact (output_onNALU hone).trans (ih hrest)

/-- A slice behind other units begins a frame or joins the one begun. -/
theorem onNALU_slice {fuel : Nat} {s : Slice} {f f' : Frames Pts} {pending : List Nalu}
    (hp : f.pendingNALU = some pending) (h : onNALU clock fuel s.nalu f = .ok f') :
    (Differs f.prev_nal_idc f.prev_nal_type s.nalu ∨ s.Short) ∧
      ((Differs f.prev_nal_idc f.prev_nal_type s.nalu ∨ s.first_mb = 0) ∧
          f' = (onEncodedFrame clock f pending).add s.nalu [] ∨
        ¬ (Differs f.prev_nal_idc f.prev_nal_type s.nalu ∨ s.first_mb = 0) ∧
          f' = f.add s.nalu pending) := by
  rw [onNALU_of_pending hp] at h
  obtain ⟨new, hnew, rfl⟩ := SeqParamSet.map_eq_ok.mp h
  obtain ⟨hread, hiff⟩ := bNew_slice hnew
  refine ⟨hread, ?_⟩
  cases new with
  | true => exact .inl ⟨hiff.mp rfl, rfl⟩
  | false => exact .inr ⟨fun hor => Bool.false_ne_true (hiff.mpr hor), rfl⟩

/-- A unit is taken where its frame can be told. -/
theorem onNALU_total {s : Slice} {f : Frames Pts}
    (h : f.pendingNALU = none ∨ Differs f.prev_nal_idc f.prev_nal_type s.nalu ∨ s.Short) :
    ∃ f', onNALU clock 32 s.nalu f = .ok f' := by
  cases hp : f.pendingNALU with
  | none => exact ⟨_, onNALU_of_none hp 32 s.nalu⟩
  | some pending =>
    have hread : Differs f.prev_nal_idc f.prev_nal_type s.nalu ∨ s.Short := by
      rcases h with hnone | hread
      · rw [hp] at hnone
        cases hnone
      · exact hread
    obtain ⟨new, hnew⟩ := bNew_total hread
    rw [onNALU_of_pending hp, hnew]
    exact ⟨_, rfl⟩

/-! ### Access units -/

/-- The units of one coded picture. -/
structure AccessUnit where
  nonVcl : List Nalu
  slice : Slice
  more : List Slice
  nonVcl_type : ∀ n ∈ nonVcl, 6 ≤ n.naltype ∧ n.naltype ≤ 9
  first_zero : slice.first_mb = 0
  more_pos : ∀ s ∈ more, 0 < s.first_mb
  same_type : ∀ s ∈ more, s.nalu.naltype = slice.nalu.naltype
  same_idc : ∀ s ∈ more, s.nalu.idc = slice.nalu.idc

namespace AccessUnit

def nalus (u : AccessUnit) : List Nalu := u.nonVcl ++ u.slice.nalu :: u.more.map Slice.nalu

/-- A picture's last unit is a slice. -/
theorem nalus_eq_concat (u : AccessUnit) : ∃ (xs : List Nalu) (s : Slice),
    u.nalus = xs ++ [s.nalu] := by
  rcases List.eq_nil_or_concat u.more with hnil | ⟨more, s, hmore⟩
  · refine ⟨u.nonVcl, u.slice, ?_⟩
    rw [nalus, hnil]
    rfl
  · refine ⟨u.nonVcl ++ u.slice.nalu :: more.map Slice.nalu, s, ?_⟩
    rw [nalus, hmore, List.concat_eq_append, List.map_append, List.append_assoc]
    rfl

end AccessUnit

/-- The frame begun is that of `u`, and `done` are those before it. -/
structure Holds (f : Frames Pts) (u : AccessUnit) (done : List (List Nalu)) : Prop where
  idc : f.prev_nal_idc = u.slice.nalu.idc
  type : f.prev_nal_type = u.slice.nalu.naltype
  pending : f.pendingNALU = some u.nalus
  output : f.output.map Prod.fst = done

/-- The slices behind the first one join it. -/
theorem feed_more {fuel idc type : Nat} {more : List Slice} (hidc : ∀ s ∈ more, s.nalu.idc = idc)
    (htype : ∀ s ∈ more, s.nalu.naltype = type) (hpos : ∀ s ∈ more, 0 < s.first_mb)
    {f f' : Frames Pts} {pending : List Nalu} (hf : f.prev_nal_idc = idc)
    (hf' : f.prev_nal_type = type) (hp : f.pendingNALU = some pending)
    (h : feed clock fuel (more.map Slice.nalu) f = .ok f') :
    (∀ s ∈ more, s.Short) ∧ f'.prev_nal_idc = idc ∧ f'.prev_nal_type = type ∧
      f'.pendingNALU = some (pending ++ more.map Slice.nalu) ∧ f'.output = f.output := by
  induction more generalizing f pending with
  | nil =>
    obtain rfl := Except.ok.inj h
    rw [List.map_nil, List.append_nil]
    exact ⟨fun s hs => (List.not_mem_nil hs).elim, hf, hf', hp, rfl⟩
  | cons s more ih =>
    have hs : ¬ Differs f.prev_nal_idc f.prev_nal_type s.nalu := by
      rw [hf, hf', ← hidc s List.mem_cons_self, ← htype s List.mem_cons_self]
      rintro (h1 | h2)
      · exact h1.1 rfl
      · exact h2.1 rfl
    have hnz : s.first_mb ≠ 0 := (hpos s List.mem_cons_self).ne'
    obtain ⟨g, hone, hrest⟩ := feed_cons_ok.mp h
    obtain ⟨hread, ⟨hor, -⟩ | ⟨-, rfl⟩⟩ := onNALU_slice hp hone
    · exact absurd hor (not_or.mpr ⟨hs, hnz⟩)
    · obtain ⟨hshort, h1, h2, h3, h4⟩ := ih (fun t ht => hidc t (List.mem_cons_of_mem s ht))
        (fun t ht => htype t (List.mem_cons_of_mem s ht))
        (fun t ht => hpos t (List.mem_cons_of_mem s ht)) (hidc s List.mem_cons_self)
        (htype s List.mem_cons_self) rfl hrest
      rw [List.append_assoc] at h3
      refine ⟨?_, h1, h2, h3, h4⟩
      rintro t ht
      rcases List.mem_cons.mp ht with rfl | ht
      · exact hread.resolve_left hs
      · exact hshort t ht

theorem feed_more_total {more : List Slice} (hshort : ∀ s ∈ more, s.Short) (f : Frames Pts) :
    ∃ f', feed clock 32 (more.map Slice.nalu) f = .ok f' := by
  induction more generalizing f with
  | nil => exact ⟨f, rfl⟩
  | cons s more ih =>
    obtain ⟨g, hone⟩ := onNALU_total
      (.inr (.inr (hshort s List.mem_cons_self)))
    obtain ⟨f', hrest⟩ := ih (fun t ht => hshort t (List.mem_cons_of_mem s ht)) g
    exact ⟨f', feed_cons_ok.mpr ⟨g, hone, hrest⟩⟩

/-- The reader can look into the slices for which it has to. -/
def AllReadable : Option AccessUnit → List AccessUnit → Prop
  | _, [] => True
  | prev, u :: us =>
    (∀ v, prev = some v →
      Differs v.slice.nalu.idc v.slice.nalu.naltype u.slice.nalu ∨ u.slice.Short) ∧
        (∀ s ∈ u.more, s.Short) ∧ AllReadable (some u) us

/-- A picture of slices alone, fed behind the picture `v`. -/
theorem feed_unit {fuel : Nat} {u v : AccessUnit} (hu : u.nonVcl = []) {f f' : Frames Pts}
    {done : List (List Nalu)} (hf : Holds f v done) (h : feed clock fuel u.nalus f = .ok f') :
    (Differs v.slice.nalu.idc v.slice.nalu.naltype u.slice.nalu ∨ u.slice.Short) ∧
      (∀ s ∈ u.more, s.Short) ∧ Holds f' u (done ++ [v.nalus]) := by
  have hnalus : u.nalus = u.slice.nalu :: u.more.map Slice.nalu := by
    rw [AccessUnit.nalus, hu, List.nil_append]
  rw [hnalus] at h
  obtain ⟨g, hone, hrest⟩ := feed_cons_ok.mp h
  obtain ⟨hread, ⟨-, rfl⟩ | ⟨hnot, -⟩⟩ := onNALU_slice hf.pending hone
  · obtain ⟨hshort, hidc, htype, hpending, houtput⟩ :=
      feed_more u.same_idc u.same_type u.more_pos rfl rfl rfl hrest
    rw [hf.idc, hf.type] at hread
    refine ⟨hread, hshort, hidc, htype, ?_, ?_⟩
    · rw [hpending, hnalus]
      rfl
    · rw [houtput, ← hf.output]
      exact output_onEncodedFrame f v.nalus
  · exact absurd (.inr u.first_zero) hnot

/-- The first access unit is held as a whole, and nothing goes out. -/
theorem feed_first {fuel : Nat} {u : AccessUnit} (hu : u.nonVcl = []) {f f' : Frames Pts}
    (hf : f.pendingNALU = none) (h : feed clock fuel u.nalus f = .ok f') :
    (∀ s ∈ u.more, s.Short) ∧ Holds f' u (f.output.map Prod.fst) := by
  have hnalus : u.nalus = u.slice.nalu :: u.more.map Slice.nalu := by
    rw [AccessUnit.nalus, hu, List.nil_append]
  rw [hnalus] at h
  obtain ⟨g, hone, hrest⟩ := feed_cons_ok.mp h
  rw [onNALU_of_none hf] at hone
  obtain rfl := Except.ok.inj hone
  obtain ⟨hshort, hidc, htype, hpending, houtput⟩ :=
    feed_more u.same_idc u.same_type u.more_pos rfl rfl rfl hrest
  refine ⟨hshort, hidc, htype, ?_, ?_⟩
  · rw [hpending, hnalus]
    rfl
  · rw [houtput]
    rfl

/-- An access unit is taken if its slices can be read. -/
theorem feed_unit_total {u : AccessUnit} (hu : u.nonVcl = []) {f : Frames Pts}
    (hfirst : f.pendingNALU = none ∨ Differs f.prev_nal_idc f.prev_nal_type u.slice.nalu ∨
      u.slice.Short) (hmore : ∀ s ∈ u.more, s.Short) :
    ∃ f', feed clock 32 u.nalus f = .ok f' := by
  obtain ⟨g, hone⟩ := onNALU_total hfirst
  obtain ⟨f', hrest⟩ := feed_more_total hmore g
  rw [AccessUnit.nalus, hu, List.nil_append]
  exact ⟨f', feed_cons_ok.mpr ⟨g, hone, hrest⟩⟩

/-- Pictures of slices alone, fed behind the picture `v`. -/
theorem feed_units {fuel : Nat} {us : List AccessUnit} (hus : ∀ u ∈ us, u.nonVcl = [])
    {f f' : Frames Pts} {v : AccessUnit} {done : List (List Nalu)} (hf : Holds f v done)
    (h : feed clock fuel (us.flatMap AccessUnit.nalus) f = .ok f') :
    AllReadable (some v) us ∧
      f'.output.map Prod.fst = done ++ (v :: us).dropLast.map AccessUnit.nalus ∧
      f'.pendingNALU = (v :: us).getLast?.map AccessUnit.nalus := by
  induction us generalizing f v done with
  | nil =>
    obtain rfl := Except.ok.inj h
    refine ⟨trivial, ?_, hf.pending⟩
    rw [hf.output]
    exact (List.append_nil done).symm
  | cons u us ih =>
    rw [List.flatMap_cons] at h
    obtain ⟨g, hone, hrest⟩ := feed_append_ok.mp h
    obtain ⟨hread, hshort, hg⟩ := feed_unit (hus u List.mem_cons_self) hf hone
    obtain ⟨hreadable, houtput, hpending⟩ :=
      ih (fun w hw => hus w (List.mem_cons_of_mem u hw)) hg hrest
    refine ⟨⟨?_, hshort, hreadable⟩, ?_, ?_⟩
    · rintro w hw
      obtain rfl := Option.some.inj hw
      exact hread
    · rw [houtput, List.append_assoc]
      rfl
    · rw [hpending, List.getLast?_cons_cons]

/-- Access units are taken one after another if each can be told from the one before. -/
theorem feed_units_total {us : List AccessUnit} (hus : ∀ u ∈ us, u.nonVcl = [])
    {f : Frames Pts} {v : AccessUnit} {done : List (List Nalu)} (hf : Holds f v done)
    (hread : AllReadable (some v) us) :
    ∃ f', feed clock 32 (us.flatMap AccessUnit.nalus) f = .ok f' := by
  induction us generalizing f v done with
  | nil => exact ⟨f, rfl⟩
  | cons u us ih =>
    obtain ⟨hfirst, hmore, hrest⟩ := hread
    have hslice := hfirst v rfl
    rw [← hf.idc, ← hf.type] at hslice
    obtain ⟨g, hone⟩ := feed_unit_total (hus u List.mem_cons_self) (.inr hslice) hmore
    obtain ⟨-, -, hg⟩ := feed_unit (hus u List.mem_cons_self) hf hone
    obtain ⟨f', hrest⟩ := ih (fun w hw => hus w (List.mem_cons_of_mem u hw)) hg hrest
    rw [List.flatMap_cons]
    exact ⟨f', feed_append_ok.mpr ⟨g, hone, hrest⟩⟩

/-! ### One call for each unit -/

/-- Each unit but the last has made one call, in order and with its NAL units,
and the last is pending. -/
def OneCallEach (clock : Clock Pts) (times : List Pts) (units : List AccessUnit) : Prop :=
  ∃ fuel f, feed clock fuel (units.flatMap AccessUnit.nalus)
      { encodeWithBlock clock with times } = .ok f ∧
    f.output.map Prod.fst = units.dropLast.map AccessUnit.nalus ∧
    f.pendingNALU = units.getLast?.map AccessUnit.nalus

/-- What stands before the slices of a unit is handed over without them. -/
theorem nonVcl_split {fuel : Nat} {units : List AccessUnit} {u : AccessUnit} (hu : u ∈ units)
    (hne : u.nonVcl ≠ []) {f f' : Frames Pts}
    (h : feed clock fuel (units.flatMap AccessUnit.nalus) f = .ok f') :
    ∃ xs n, (6 ≤ n.naltype ∧ n.naltype ≤ 9) ∧ xs ++ [n] ∈ f'.output.map Prod.fst := by
  obtain ⟨before, after, rfl⟩ := List.append_of_mem hu
  obtain ⟨ys, n, hn⟩ := (List.eq_nil_or_concat u.nonVcl).resolve_left hne
  rw [List.concat_eq_append] at hn
  have htype := u.nonVcl_type n (by rw [hn]; exact List.mem_append_right ys List.mem_cons_self)
  have hsplit : (before ++ u :: after).flatMap AccessUnit.nalus =
      (before.flatMap AccessUnit.nalus ++ ys) ++ n :: u.slice.nalu ::
        (u.more.map Slice.nalu ++ after.flatMap AccessUnit.nalus) := by
    rw [List.flatMap_append, List.flatMap_cons, AccessUnit.nalus, hn]
    simp
  rw [hsplit] at h
  obtain ⟨g, -, h⟩ := feed_append_ok.mp h
  obtain ⟨g1, hnonVcl, h⟩ := feed_cons_ok.mp h
  obtain ⟨g2, hslice, h⟩ := feed_cons_ok.mp h
  obtain ⟨xs, hpending⟩ := pending_onNALU hnonVcl
  refine ⟨xs, n, htype, ?_⟩
  obtain ⟨-, ⟨-, rfl⟩ | ⟨hnot, -⟩⟩ := onNALU_slice hpending hslice
  · apply (output_feed h).subset
    change _ ∈ (onEncodedFrame clock g1 (xs ++ [n])).output.map Prod.fst
    rw [output_onEncodedFrame]
    exact List.mem_append_right _ List.mem_cons_self
  · exact absurd (.inr u.first_zero) hnot

theorem nalus_ne_concat {u : AccessUnit} {xs : List Nalu} {n : Nalu} (h : u.nalus = xs ++ [n])
    (htype : 6 ≤ n.naltype) : False := by
  obtain ⟨ys, s, hs⟩ := u.nalus_eq_concat
  obtain ⟨-, hlast⟩ := List.append_inj' (hs.symm.trans h) rfl
  obtain ⟨rfl, -⟩ := List.cons.inj hlast
  rcases s.type_eq with h1 | h5
  · omega
  · omega

/-- The output block is called once for each unit if and only if the units are
slices alone, and the slices that the reader has to look into are shorter than
2^31 bytes. -/
theorem oneCallEach_iff (clock : Clock Pts) (times : List Pts) (units : List AccessUnit) :
    OneCallEach clock times units ↔
      (∀ u ∈ units, u.nonVcl = []) ∧ AllReadable none units := by
  constructor
  · rintro ⟨fuel, f, hfeed, houtput, -⟩
    have hslices : ∀ u ∈ units, u.nonVcl = [] := by
      intro u hu
      by_contra hne
      obtain ⟨xs, n, htype, hmem⟩ := nonVcl_split hu hne hfeed
      rw [houtput] at hmem
      obtain ⟨v, -, hv⟩ := List.mem_map.mp hmem
      exact nalus_ne_concat hv htype.1
    refine ⟨hslices, ?_⟩
    cases units with
    | nil => trivial
    | cons u us =>
      rw [List.flatMap_cons] at hfeed
      obtain ⟨g, hone, hrest⟩ := feed_append_ok.mp hfeed
      obtain ⟨hshort, hg⟩ := feed_first (hslices u List.mem_cons_self) rfl hone
      obtain ⟨hread, -, -⟩ :=
        feed_units (fun v hv => hslices v (List.mem_cons_of_mem u hv)) hg hrest
      exact ⟨fun v hv => (nomatch hv), hshort, hread⟩
  · rintro ⟨hslices, hread⟩
    cases units with
    | nil => exact ⟨32, _, rfl, rfl, rfl⟩
    | cons u us =>
      obtain ⟨-, hmore, hread⟩ := hread
      have hus : ∀ v ∈ us, v.nonVcl = [] := fun v hv => hslices v (List.mem_cons_of_mem u hv)
      have hnone : ({ encodeWithBlock clock with times } : Frames Pts).pendingNALU = none := rfl
      obtain ⟨g, hone⟩ := feed_unit_total (hslices u List.mem_cons_self) (.inl hnone) hmore
      obtain ⟨-, hg⟩ := feed_first (hslices u List.mem_cons_self) rfl hone
      obtain ⟨f, hrest⟩ := feed_units_total hus hg hread
      obtain ⟨-, houtput, hpending⟩ := feed_units hus hg hrest
      refine ⟨32, f, ?_, houtput, hpending⟩
      rw [List.flatMap_cons]
      exact feed_append_ok.mpr ⟨g, hone, hrest⟩

def wholeSeconds : Clock Int where
  zero := 0
  minusOne := -1
  negative := fun pts => pts < 0
  inFirstSecond := fun pts firstpts => pts - firstpts < 1

/-- The rest of a slice whose first macroblock is 0. -/
theorem coded_first_zero (first : Byte) (h : payload 0 [first, 0x88] = [first, 0x88]) :
    ∃ s, streamOf (payload 0 [first, 0x88]) = wordBits 8 first.toNat ++ₛ (ueBits 0 ++ₛ s) := by
  refine ⟨[false, false, false, true, false, false, false] ++ₛ zeros, ?_⟩
  rw [h, streamOf_cons, streamOf_cons, streamOf_nil, ← Stream'.append_append_stream (ueBits 0)]
  apply congrArg (wordBits 8 _ ++ₛ ·)
  apply congrArg (· ++ₛ zeros)
  decide

def idrSlice : Slice where
  nalu := ⟨0x65, [0x88], by decide⟩
  type_eq := .inr (by decide)
  first_mb := 0
  first_mb_lt := by decide
  coded := coded_first_zero 0x65 (by decide)

def pSlice : Slice where
  nalu := ⟨0x41, [0x88], by decide⟩
  type_eq := .inl (by decide)
  first_mb := 0
  first_mb_lt := by decide
  coded := coded_first_zero 0x41 (by decide)

/-- An access unit delimiter, and a picture of one slice. -/
def delimited : AccessUnit where
  nonVcl := [⟨0x09, [0x10], by decide⟩]
  slice := idrSlice
  more := []
  nonVcl_type := by
    rintro n hn
    rw [List.mem_singleton.mp hn]
    decide
  first_zero := rfl
  more_pos := fun _ h => (List.not_mem_nil h).elim
  same_type := fun _ h => (List.not_mem_nil h).elim
  same_idc := fun _ h => (List.not_mem_nil h).elim

/-- The delimiter makes a call of its own before the one unit is complete. -/
theorem delimiter_is_a_frame : ¬ OneCallEach wholeSeconds [0] [delimited] := by
  rintro ⟨fuel, f, hfeed, houtput, -⟩
  have hne : delimited.nonVcl ≠ [] := List.cons_ne_nil _ _
  obtain ⟨xs, n, -, hmem⟩ := nonVcl_split List.mem_cons_self hne hfeed
  rw [houtput] at hmem
  exact List.not_mem_nil hmem

end Frames

end Sogx
