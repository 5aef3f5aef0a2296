import Sogx.Ios.NALUnit
import Sogx.Lib.SpsSyntax

/-!
`SeqParamSet::Parse` of `NALUnit.cpp`, and the look at `first_mb_in_slice` that
`onNALU:` takes, as programs of reads.

* `reading_returns_iff`: when they come to their end.
* `readsRight_iff`: which of the standard's parameter sets `Parse` reads right.
  `Skip` does not skip the last bit of a byte, and only the flag of picture
  order count type 1 can stand there (`eval_highProfile`).
-/

namespace Sogx

open Sogx.Lib Sogx.Lib.Bitstream

/-- What the parser keeps of a sequence parameter set. -/
structure SeqParamSet where
  m_nalu : NALUnit
  m_FrameBits : Int
  m_cx : Int
  m_cy : Int
  m_bFrameOnly : Bool
  m_Profile : Int
  m_Level : Int
  m_Compatibility : Byte

namespace SeqParamSet

open Program (getBit getWord getUE getSE skipBits eval eval_bind_of eval_getBit_append
  eval_getWord_append eval_getUE_append eval_getSE_append eval_pure eval_skipBits)

def Interlaced (q : SeqParamSet) : Bool := !q.m_bFrameOnly

/-- `ScalingList`, with `size` turns of its loop left. -/
def scalingList : Nat → Int → Int → Program Unit
  | 0, _, _ => return ()
  | size + 1, lastScale, nextScale => do
    let nextScale ← if nextScale ≠ 0 then do
        let delta ← getSE
        pure ((lastScale + delta + 256).tmod 256)
      else pure nextScale
    let scaling_list_j := int (if nextScale = 0 then lastScale else nextScale)
    scalingList size scaling_list_j nextScale

/-- The loop over the scaling lists that may be there. -/
def scalingMatrix : List Nat → Program Unit
  | [] => return ()
  | i :: is => do
    if ← getBit then
      scalingList (if i < 6 then 16 else 64) 8 8
    scalingMatrix is

/-- The block of the high profiles. -/
def highProfile : Program Unit := do
  let chroma_fmt := int (← getUE)
  if chroma_fmt = 3 then
    skipBits 1
  let _bit_depth_luma_minus8 ← getUE
  let _bit_depth_chroma_minus8 ← getUE
  skipBits 1
  let seq_scaling_matrix_present ← getBit
  if seq_scaling_matrix_present then
    scalingMatrix (List.range 8)

/-- The loop over the reference frames of the cycle. -/
def refFrames : Nat → Program Unit
  | 0 => return ()
  | i + 1 => do
    let _sf_offset ← getSE
    refFrames i

/-- The offsets of picture order count type 1. -/
def orderOffsets : Program Unit := do
  let _nsp_offset ← getSE
  let _nsp_top_to_bottom ← getSE
  let num_ref_in_cycle := int (← getUE)
  refFrames num_ref_in_cycle.toNat

/-- The fields of a picture order count; false for a type that is not known. -/
def pictureOrder (POCtype : Int) : Program Bool := do
  if POCtype = 0 then
    let _log2_poc_minus4 ← getUE
    return true
  else if POCtype = 1 then
    skipBits 1
    orderOffsets
    return true
  else
    return POCtype = 2

/-- The size in pixels of so many macroblocks and one, as an `int`. -/
def codedSize (mbs : Nat) : Int := int (int (int mbs + 1) * 16)

/-- From `num_ref_frames` on. -/
def picture (q : SeqParamSet) : Program (Bool × SeqParamSet) := do
  let _num_ref_frames ← getUE
  let _gaps_allowed ← getBit
  let mbs_width ← getUE
  let mbs_height ← getUE
  let m_cx := codedSize mbs_width
  let m_cy := codedSize mbs_height
  if m_cx > 2000 ∨ m_cy > 2000 then
    return (false, { q with m_cx := m_cx, m_cy := m_cy })
  let m_bFrameOnly ← getBit
  if !m_bFrameOnly then
    skipBits 1
  skipBits 1
  let m_cy := if !m_bFrameOnly then m_cy * 2 else m_cy
  return (true, { q with m_cx := m_cx, m_cy := m_cy, m_bFrameOnly := m_bFrameOnly })

def orderAndPicture (POCtype : Int) (q : SeqParamSet) : Program (Bool × SeqParamSet) := do
  if !(← pictureOrder POCtype) then
    return (false, q)
  picture q

def isHigh (m_Profile : Int) : Bool :=
  m_Profile = 100 ∨ m_Profile = 110 ∨ m_Profile = 122 ∨ m_Profile = 144

/-- `Parse` behind the test of the type. -/
def parse (q : SeqParamSet) : Program (Bool × SeqParamSet) := do
  skipBits 8
  let m_Profile := int (← getWord 8)
  let m_Compatibility := BitVec.ofNat 8 (← getWord 8)
  let m_Level := int (← getWord 8)
  let _seq_param_id ← getUE
  if isHigh m_Profile then
    highProfile
  let log2_frame_minus4 := int (← getUE)
  let m_FrameBits := int (log2_frame_minus4 + 4)
  let POCtype := int (← getUE)
  orderAndPicture POCtype { q with m_Profile, m_Compatibility, m_Level, m_FrameBits }

def Parse (fuel : Nat) (q : SeqParamSet) (pnalu : NALUnit) :
    Except NALUnit.Stop ((Bool × SeqParamSet) × NALUnit) := do
  if pnalu.type ≠ 7 then return ((false, q), pnalu)
  let ((parsed, q), pnalu) ← (parse q).run NALUnit.reader fuel pnalu.ResetBitstream
  if !parsed then return ((false, q), pnalu)
  return ((true, { q with m_nalu := pnalu.ResetBitstream }), pnalu)

/-- The look of `onNALU:` into a slice. -/
def firstMb : Program Int := do
  skipBits 8
  return int (← getUE)

/-! ### Coming to an end -/

theorem map_eq_ok {ε α β : Type} {x : Except ε α} {f : α → β} {b : β} :
    x.map f = .ok b ↔ ∃ a, x = .ok a ∧ f a = b := by
  cases x with
  | error e => simp [Except.map]
  | ok a => simp [Except.map]

/-- Reading a code returns if and only if there is a set bit among the next 32. -/
theorem GetUE_returns_iff (n : NALUnit) :
    (∃ fuel r, n.GetUE fuel = .ok r) ↔ true ∈ n.cursor.bits.take 32 := by
  rw [← Cursor.ue_isSome_iff]
  constructor
  · rintro ⟨fuel, ⟨u, n'⟩, h⟩
    exact Option.isSome_of_eq_some (NALUnit.GetUE_cursor h)
  · intro h
    exact ⟨32, NALUnit.GetUE_total h⟩

theorem GetSE_returns_iff (n : NALUnit) :
    (∃ fuel r, n.GetSE fuel = .ok r) ↔ true ∈ n.cursor.bits.take 32 := by
  have hse : ∀ fuel, n.GetSE fuel = (n.GetUE fuel).map fun r => (signed r.1, r.2) :=
    fun fuel => NALUnit.follows.se fuel n
  rw [← GetUE_returns_iff]
  simp only [hse, map_eq_ok]
  constructor
  · rintro ⟨fuel, _, u, h, -⟩
    exact ⟨fuel, u, h⟩
  · rintro ⟨fuel, u, h⟩
    exact ⟨fuel, _, u, h, rfl⟩

/-- On a parameter set, `Parse` is the run of `parse` and keeps the unit where
that succeeds. -/
theorem Parse_eq {n : NALUnit} (h : n.type = 7) (fuel : Nat) (q : SeqParamSet) :
    Parse fuel q n = ((parse q).run NALUnit.reader fuel n.ResetBitstream).map fun r =>
      ((r.1.1, if r.1.1 then { r.1.2 with m_nalu := r.2.ResetBitstream } else r.1.2), r.2) := by
  rw [Parse, if_neg (not_not.mpr h)]
  cases (parse q).run NALUnit.reader fuel n.ResetBitstream with
  | error e => rfl
  | ok r =>
    obtain ⟨⟨parsed, q'⟩, n'⟩ := r
    cases parsed with
    | false => rfl
    | true => rfl

/-- The parser returns if and only if every code that it asks for is ahead. -/
theorem Parse_returns_iff (q : SeqParamSet) (n : NALUnit) :
    (∃ fuel r, Parse fuel q n = .ok r) ↔
      (n.type = 7 → (parse q).CodesAhead NALUnit.skip n.ResetBitstream.cursor) := by
  rw [← Program.returns_iff NALUnit.follows]
  by_cases htype : n.type = 7
  · simp only [Parse_eq htype, map_eq_ok]
    constructor
    · rintro ⟨fuel, _, r, hrun, -⟩ -
      exact ⟨fuel, r, hrun⟩
    · intro h
      obtain ⟨fuel, r, hrun⟩ := h htype
      exact ⟨fuel, _, r, hrun, rfl⟩
  · constructor
    · intro _ h
      exact absurd h htype
    · intro _
      exact ⟨0, ((false, q), n), if_pos htype⟩

/-- The number of the first macroblock is read if there is a set bit behind the first
byte. -/
theorem firstMb_returns_iff (data : List Byte) :
    firstMb.Returns NALUnit.reader (.ofData data) ↔
      true ∈ ((NALUnit.ofData data).cursor.bits.drop 8).take 32 := by
  have hskip : NALUnit.skip 8 (NALUnit.ofData data).cursor =
      ⟨0, (NALUnit.ofData data).cursor.bits.drop 8⟩ := NALUnit.skip_eight _
  rw [Program.returns_iff NALUnit.follows]
  change _ ∧ _ ↔ _
  rw [hskip]
  exact ⟨fun h => h.1, fun h => ⟨h, fun _ _ _ => trivial⟩⟩

/-- The readings of a NAL unit come to their end, with no shift by 32 or more,
if and only if a one is near wherever a code is read: for a parameter set that
is `CodesAhead`, along its syntax. -/
theorem reading_returns_iff (q : SeqParamSet) (n : NALUnit) (data : List Byte) :
    ((∃ fuel r, n.GetUE fuel = .ok r) ↔ true ∈ n.cursor.bits.take 32) ∧
      ((∃ fuel r, n.GetSE fuel = .ok r) ↔ true ∈ n.cursor.bits.take 32) ∧
      ((∃ fuel r, Parse fuel q n = .ok r) ↔
        (n.type = 7 → (parse q).CodesAhead NALUnit.skip n.ResetBitstream.cursor)) ∧
      (firstMb.Returns NALUnit.reader (.ofData data) ↔
        true ∈ ((NALUnit.ofData data).cursor.bits.drop 8).take 32) :=
  ⟨GetUE_returns_iff n, GetSE_returns_iff n, Parse_returns_iff q n, firstMb_returns_iff data⟩

/-- A parameter set that is cut off behind its level keeps the parser busy for
ever, and a slice of nothing but its first byte does the same to the look at
`first_mb_in_slice`. -/
theorem truncated_units_hang :
    (∀ q fuel r, Parse fuel q (.ofData [0x67, 0x42, 0x00, 0x1e]) ≠ .ok r) ∧
      ¬ firstMb.Returns NALUnit.reader (.ofData [0x41]) := by
  constructor
  · intro q fuel r h
    have hcodes := (Parse_returns_iff q _).mp ⟨fuel, r, h⟩ (by decide)
    have hcursor : (NALUnit.ofData [0x67, 0x42, 0x00, 0x1e]).ResetBitstream.cursor =
        ⟨0, streamOf [0x67, 0x42, 0x00, 0x1e]⟩ := NALUnit.cursor_ofData (by decide)
    have hdrop : (streamOf [0x67, 0x42, 0x00, 0x1e]).drop 32 = zeros :=
      drop_append_of_length zeros rfl
    rw [hcursor] at hcodes
    change Program.CodesAhead _ (Program.skip 8 _) _ at hcodes
    rw [Program.CodesAhead, NALUnit.skip_eight] at hcodes
    have hone : true ∈ (((((streamOf [0x67, 0x42, 0x00, 0x1e]).drop 8).drop 8).drop 8).drop
        8).take 32 := hcodes.1
    rw [Stream'.drop_drop, Stream'.drop_drop, Stream'.drop_drop, hdrop] at hone
    exact true_not_mem_zeros 32 hone
  · have hcursor : (NALUnit.ofData [0x41]).cursor = ⟨0, streamOf [0x41]⟩ :=
      NALUnit.cursor_ofData (by decide)
    have hdrop : (streamOf [0x41]).drop 8 = zeros := drop_append_of_length zeros rfl
    rw [firstMb_returns_iff, hcursor, hdrop]
    exact true_not_mem_zeros 32

/-! ### Reading a parameter set -/

section Reading

open NALUnit (skip)

/-- A single bit is skipped, unless it is the last one of its byte. -/
theorem skip_one {p : Nat} (h : p % 8 ≠ 7) (b : Bool) (s : Bits) :
    skip 1 (.behind p ([b] ++ₛ s)) = .behind (p + 1) s := by
  have hdrop : ([b] ++ₛ s).drop 1 = s := rfl
  rw [Cursor.behind, NALUnit.skip_mk, hdrop, Cursor.behind]
  split
  · congr 1
    omega
  · split
    · omega
    · congr 1
      omega

/-- The last bit of a byte stays where it is. -/
theorem skip_one_stays {p : Nat} (h : p % 8 = 7) (s : Bits) :
    skip 1 (.behind p s) = .behind p s := by
  have hleft : (8 - p % 8) % 8 = 1 := by omega
  rw [Cursor.behind, hleft, NALUnit.skip_mk, if_neg (Nat.lt_irrefl 1), if_pos rfl, Stream'.append_take_drop]

theorem eval_skip_one {p : Nat} (h : p % 8 ≠ 7) (b : Bool) (s : Bits) :
    eval skip (skipBits 1) (.behind p ([b] ++ₛ s)) = some ((), .behind (p + 1) s) := by
  rw [eval_skipBits, skip_one h]

/-- The scale that is read back is the one that the difference was made of. -/
theorem scale_read {last s : Int} (hlast : 1 ≤ last) (hs : 0 ≤ s ∧ s ≤ 255) :
    (last + deltaScale last s + 256).tmod 256 = s := by
  unfold deltaScale
  rw [Int.tmod_eq_emod_of_nonneg (by omega)]
  omega

theorem eval_scalingList_zero (size : Nat) (last : Int) (c : Cursor) :
    eval skip (scalingList size last 0) c = some ((), c) := by
  induction size generalizing last with
  | zero => rfl
  | succ size ih =>
    rw [scalingList]
    exact ih (int last)

/-- The reader takes one difference for each entry, by induction on the entries. -/
theorem eval_scalingList {size : Nat} {last next : Int} {scales : List Int}
    (hlen : scales.length ≤ size) (hrange : ∀ s ∈ scales, 1 ≤ s ∧ s ≤ 255)
    (hlast : 1 ≤ last) (hnext : next ≠ 0) (p : Nat) (s : Bits) :
    eval skip (scalingList size last next)
        (.behind p ((deltas size last scales).flatMap seBits ++ₛ s)) =
      some ((), .behind (p + ((deltas size last scales).flatMap seBits).length) s) := by
  induction size generalizing last next scales p with
  | zero => rfl
  | succ size ih =>
    cases scales with
    | nil =>
      have hread := scale_read (s := 0) hlast (by omega)
      have hfits := (fitsSE_deltaScale last 0).codeNum_lt
      rw [scalingList, if_pos hnext, deltas, List.flatMap_singleton,
        eval_bind_of (eval_getSE_append hfits p s), eval_bind_of (eval_pure _ _), hread]
      exact eval_scalingList_zero _ _ _
    | cons a scales =>
      obtain ⟨hlow, hhigh⟩ := hrange a List.mem_cons_self
      have hread := scale_read (s := a) hlast (by omega)
      have ha : a ≠ 0 := by omega
      have hint : int a = a := int_of_range (by omega) (by omega)
      have hrest := ih (Nat.le_of_succ_le_succ hlen)
        (fun b hb => hrange b (List.mem_cons_of_mem a hb)) hlow ha
      have hfits := (fitsSE_deltaScale last a).codeNum_lt
      rw [scalingList, if_pos hnext, deltas, List.flatMap_cons, Stream'.append_append_stream,
        eval_bind_of (eval_getSE_append hfits p _), eval_bind_of (eval_pure _ _), hread]
      simp only [if_neg ha, hint]
      rw [List.length_append, ← Nat.add_assoc]
      exact hrest _

theorem eval_scalingMatrix (lists : (i : Nat) → Option (ScalingList (listSize i)))
    (is : List Nat) (p : Nat) (s : Bits) :
    eval skip (scalingMatrix is)
        (.behind p ((is.flatMap fun i => listBits (lists i)) ++ₛ s)) =
      some ((), .behind (p + (is.flatMap fun i => listBits (lists i)).length) s) := by
  induction is generalizing p with
  | nil => rfl
  | cons i is ih =>
    rw [scalingMatrix, List.flatMap_cons, Stream'.append_append_stream, List.length_append,
      ← Nat.add_assoc]
    cases h : lists i with
    | none =>
      have hbit : listBits (none : Option (ScalingList (listSize i))) = [false] := rfl
      rw [hbit, eval_bind_of (eval_getBit_append p false _), if_neg Bool.false_ne_true]
      exact ih (p + 1)
    | some l =>
      have hbits : listBits (some l) = [true] ++ l.bits := rfl
      have hlist : eval skip (scalingList (if i < 6 then 16 else 64) 8 8)
          (.behind (p + 1) (l.bits ++ₛ ((is.flatMap fun i => listBits (lists i)) ++ₛ s))) = _ :=
        eval_scalingList l.length_le l.range (by norm_num) (by norm_num) _ _
      rw [hbits, Stream'.append_append_stream, eval_bind_of (eval_getBit_append p true _),
        if_pos rfl, eval_bind_of hlist, List.length_append, List.length_singleton, ← Nat.add_assoc]
      exact ih _

/-- Codes have an odd number of bits. -/
theorem length_ueBits_odd (v : Nat) : (ueBits v).length % 2 = 1 := by
  rw [length_ueBits]
  omega

/-- The scaling lists are read as they are written. -/
theorem eval_scaling (scaling : Option ((i : Nat) → Option (ScalingList (listSize i))))
    (p : Nat) (s : Bits) :
    eval skip (do
        let seq_scaling_matrix_present ← getBit
        if seq_scaling_matrix_present then
          scalingMatrix (List.range 8)) (.behind p (scalingBits scaling ++ₛ s)) =
      some ((), .behind (p + (scalingBits scaling).length) s) := by
  cases scaling with
  | none =>
    have hbits : scalingBits none = [false] := rfl
    rw [hbits, eval_bind_of (eval_getBit_append p false s), if_neg Bool.false_ne_true]
    rfl
  | some lists =>
    have hbits : scalingBits (some lists) =
        [true] ++ (List.range 8).flatMap fun i => listBits (lists i) := rfl
    rw [hbits, Stream'.append_append_stream, eval_bind_of (eval_getBit_append p true _),
      if_pos rfl, eval_scalingMatrix, List.length_append, List.length_singleton, Nat.add_assoc]

/-- The flag that the block of the high profiles skips is never the last bit of
a byte: with the parameter set's number, four codes stand before it. -/
theorem eval_highProfile (f : HighFields) {p : Nat} (hp : p % 2 = 1) (s : Bits) :
    eval skip highProfile (.behind p (f.bits ++ₛ s)) =
      some ((), .behind (p + f.bits.length) s) := by
  have hchroma := f.chroma_le
  have hluma := f.luma_le
  have hdepth := f.chroma_depth_le
  have hint : int (f.chroma_format_idc : Int) = f.chroma_format_idc := int_of_lt (by omega)
  have hne : ¬ int (f.chroma_format_idc : Int) = 3 := by
    rw [hint]
    omega
  have hodd0 := length_ueBits_odd f.chroma_format_idc
  have hodd1 := length_ueBits_odd f.bit_depth_luma_minus8
  have hodd2 := length_ueBits_odd f.bit_depth_chroma_minus8
  have hflag : (p + (ueBits f.chroma_format_idc).length +
      (ueBits f.bit_depth_luma_minus8).length +
      (ueBits f.bit_depth_chroma_minus8).length) % 8 ≠ 7 := by omega
  unfold highProfile HighFields.bits
  simp only [Stream'.append_append_stream, List.length_append]
  rw [eval_bind_of (eval_getUE_append (by omega) p _)]
  simp only [if_neg hne]
  rw [eval_bind_of (eval_getUE_append (by omega) _ _),
    eval_bind_of (eval_getUE_append (by omega) _ _), eval_bind_of (eval_skip_one hflag _ _),
    eval_scaling]
  simp only [List.length_singleton, Nat.add_assoc]

/-- What the parser keeps of the front of a parameter set. -/
def kept (q : SeqParamSet) (sps : SPS) : SeqParamSet :=
  { q with
    m_Profile := sps.profile.idc
    m_Compatibility := BitVec.ofNat 8 sps.constraint_flags
    m_Level := sps.level_idc
    m_FrameBits := sps.log2_max_frame_num_minus4 + 4 }

theorem idc_lt (p : Profile) : p.idc < 2 ^ 8 := by
  cases p with
  | baseline | main | extended | high | high10 | high422 => norm_num [Profile.idc]

theorem isHigh_idc (p : Profile) : isHigh (p.idc : Int) = p.fields.isSome := by
  cases p with
  | baseline | main | extended | high | high10 | high422 => rfl

theorem type_le (p : PicOrderCnt) : p.type ≤ 2 := by
  cases p with
  | type0 | type1 | type2 => norm_num [PicOrderCnt.type]

/-- The fields in front are read, whatever stands behind them. -/
theorem eval_front (q : SeqParamSet) (sps : SPS) (first : Byte) (s : Bits) :
    eval skip (parse q) (.behind 0 (wordBits 8 first.toNat ++ₛ (sps.front ++ₛ s))) =
      eval skip (orderAndPicture sps.pic_order_cnt.type (kept q sps))
        (.behind (8 + sps.front.length) s) := by
  have hflags := sps.constraint_flags_lt
  have hlevel := sps.level_idc_lt
  have hid := sps.id_le
  have hlog2 := sps.log2_le
  have hodd := length_ueBits_odd sps.seq_parameter_set_id
  have htype := type_le sps.pic_order_cnt
  have hidc := idc_lt sps.profile
  have hskip : eval skip (skipBits 8) (.behind 0 (wordBits 8 first.toNat ++ₛ (sps.front ++ₛ s))) =
      some ((), .behind 8 (sps.front ++ₛ s)) := by
    rw [eval_skipBits]
    change some ((), skip 8 ⟨0, _⟩) = _
    rw [NALUnit.skip_eight, drop_append_of_length _ (length_wordBits 8 _)]
    rfl
  rw [parse, eval_bind_of hskip]
  unfold SPS.front
  simp only [Stream'.append_append_stream, List.length_append, length_wordBits]
  rw [eval_bind_of (eval_getWord_append hidc _ _), eval_bind_of (eval_getWord_append hflags _ _),
    eval_bind_of (eval_getWord_append hlevel _ _),
    eval_bind_of (eval_getUE_append (by omega) _ _)]
  have hint : int (sps.profile.idc : Int) = sps.profile.idc := int_of_lt (by omega)
  have hlevel' : int (sps.level_idc : Int) = sps.level_idc := int_of_lt (by omega)
  have hlog2' : int (sps.log2_max_frame_num_minus4 : Int) = sps.log2_max_frame_num_minus4 :=
    int_of_lt (by omega)
  have hbits : int ((sps.log2_max_frame_num_minus4 : Int) + 4) = sps.log2_max_frame_num_minus4 + 4 :=
    int_of_range (by omega) (by omega)
  have htype' : int (sps.pic_order_cnt.type : Int) = sps.pic_order_cnt.type :=
    int_of_lt (by omega)
  simp only [hint, hlevel', isHigh_idc]
  cases hfields : sps.profile.fields with
  | none =>
    have hprofile : sps.profile.bits = [] := by rw [Profile.bits, hfields]; rfl
    simp only [hprofile, Option.isSome_none, Bool.false_eq_true, if_false,
      Stream'.nil_append_stream, List.length_nil]
    rw [eval_bind_of (eval_getUE_append (by omega) _ _),
      eval_bind_of (eval_getUE_append (by omega) _ _)]
    simp only [hlog2', hbits, htype']
    apply congrArg fun p => eval skip _ (.behind p s)
    omega
  | some f =>
    have hprofile : sps.profile.bits = f.bits := by rw [Profile.bits, hfields]; rfl
    simp only [hprofile, Option.isSome_some, if_true]
    rw [eval_bind_of (eval_highProfile f (by omega) _),
      eval_bind_of (eval_getUE_append (by omega) _ _),
      eval_bind_of (eval_getUE_append (by omega) _ _)]
    simp only [hlog2', hbits, htype']
    apply congrArg fun p => eval skip _ (.behind p s)
    omega

/-- The offsets of a cycle are read one by one. -/
theorem eval_refFrames {offsets : List Int} (h : ∀ v ∈ offsets, FitsSE v) (p : Nat) (s : Bits) :
    eval skip (refFrames offsets.length) (.behind p (offsets.flatMap seBits ++ₛ s)) =
      some ((), .behind (p + (offsets.flatMap seBits).length) s) := by
  induction offsets generalizing p with
  | nil => rfl
  | cons v offsets ih =>
    have hv := (h v List.mem_cons_self).codeNum_lt
    rw [List.length_cons, refFrames, List.flatMap_cons, Stream'.append_append_stream,
      eval_bind_of (eval_getSE_append hv p _), ih fun w hw => h w (List.mem_cons_of_mem v hw),
      List.length_append, Nat.add_assoc]

/-- The fields of the picture order of type 1 are read. -/
theorem eval_orderOffsets {nonRef topToBottom : Int} {numRef : Nat} {refs : List Int}
    (hnonRef : FitsSE nonRef) (htopToBottom : FitsSE topToBottom) (hnumRef : numRef + 1 < 2 ^ 32)
    (hrefs : ∀ v ∈ refs, FitsSE v) (hcount : refs.length = (int numRef).toNat)
    (p : Nat) (s : Bits) :
    eval skip orderOffsets (.behind p (seBits nonRef ++ₛ (seBits topToBottom ++ₛ
        (ueBits numRef ++ₛ (refs.flatMap seBits ++ₛ s))))) =
      some ((), .behind (p + (seBits nonRef).length + (seBits topToBottom).length +
        (ueBits numRef).length + (refs.flatMap seBits).length) s) := by
  unfold orderOffsets
  rw [eval_bind_of (eval_getSE_append hnonRef.codeNum_lt _ _),
    eval_bind_of (eval_getSE_append htopToBottom.codeNum_lt _ _),
    eval_bind_of (eval_getUE_append hnumRef _ _)]
  simp only [← hcount]
  rw [eval_refFrames hrefs]

/-- A whole cycle is read. -/
theorem eval_cycle (c : OrderCycle) (p : Nat) (s : Bits) :
    eval skip orderOffsets (.behind p (c.offsets ++ₛ s)) =
      some ((), .behind (p + c.offsets.length) s) := by
  have hlen := c.length_le
  have hint : int (c.offset_for_ref_frame.length : Int) = c.offset_for_ref_frame.length :=
    int_of_lt (by omega)
  unfold OrderCycle.offsets
  simp only [Stream'.append_append_stream, List.length_append]
  rw [eval_orderOffsets c.fits_non_ref c.fits_top_to_bottom (by omega) c.fits_ref_frame
    (by rw [hint, Int.toNat_natCast])]
  simp only [Nat.add_assoc]

/-- The flag of picture order count type 1 is the last bit of its byte. -/
def FlagAtEnd (sps : SPS) : Prop := (8 + sps.front.length) % 8 = 7

/-- Where no flag is skipped at the end of a byte, the order fields are read. -/
theorem eval_pictureOrder {p : Nat} (order : PicOrderCnt)
    (h : ∀ c, order = .type1 c → p % 8 ≠ 7) (s : Bits) :
    eval skip (pictureOrder order.type) (.behind p (order.bits ++ₛ s)) =
      some (true, .behind (p + order.bits.length) s) := by
  cases order with
  | type0 log2 hle =>
    change eval skip (getUE >>= fun _ => pure true) (.behind p (ueBits log2 ++ₛ s)) = _
    rw [eval_bind_of (eval_getUE_append (by omega) _ _)]
    rfl
  | type1 c =>
    change eval skip (skipBits 1 >>= fun _ => orderOffsets >>= fun _ => pure true)
      (.behind p (([c.delta_pic_order_always_zero_flag] ++ c.offsets) ++ₛ s)) = _
    rw [Stream'.append_append_stream, eval_bind_of (eval_skip_one (h c rfl) _ _),
      eval_bind_of (eval_cycle c _ _), PicOrderCnt.bits, List.length_append,
      List.length_singleton, ← Nat.add_assoc]
    rfl
  | type2 => rfl

/-- What the parser makes of the fields of a picture. -/
def pictured (q : SeqParamSet) (width height : Nat) (frameOnly : Bool) : Bool × SeqParamSet :=
  if codedSize width > 2000 ∨ codedSize height > 2000 then
    (false, { q with m_cx := codedSize width, m_cy := codedSize height })
  else
    (true, { q with
      m_cx := codedSize width
      m_cy := if !frameOnly then codedSize height * 2 else codedSize height
      m_bFrameOnly := frameOnly })

/-- The fields behind the picture order are read, and the size is kept. -/
theorem eval_picture (q : SeqParamSet) {maxRefs width height : Nat} (hmaxRefs : maxRefs + 1 < 2 ^ 32)
    (hwidth : width + 1 < 2 ^ 32) (hheight : height + 1 < 2 ^ 32) (gaps frameOnly : Bool)
    (p : Nat) (s : Bits) :
    ∃ c, eval skip (picture q) (.behind p (ueBits maxRefs ++ₛ ([gaps] ++ₛ (ueBits width ++ₛ
        (ueBits height ++ₛ ([frameOnly] ++ₛ s)))))) = some (pictured q width height frameOnly, c) := by
  unfold picture pictured
  rw [eval_bind_of (eval_getUE_append hmaxRefs _ _), eval_bind_of (eval_getBit_append _ _ _),
    eval_bind_of (eval_getUE_append hwidth _ _), eval_bind_of (eval_getUE_append hheight _ _)]
  dsimp only
  split
  · exact ⟨_, rfl⟩
  · rw [eval_bind_of (eval_getBit_append _ _ _)]
    cases frameOnly with
    | true => exact ⟨_, rfl⟩
    | false => exact ⟨_, rfl⟩

/-! What a parameter set is read as behind picture order count type 1, wherever
its bits are read from. -/

/-- The bits begin with the offsets, the reference frames and the size of a
picture, of so many pixels for the parser. -/
inductive TailReads : Bits → Int → Int → Bool → Prop where
  | mk {nonRef topToBottom : Int} {numRef : Nat} {refs : List Int} {maxRefs width height : Nat}
      {gaps frameOnly : Bool} {t : Bits} (hnonRef : FitsSE nonRef)
      (htopToBottom : FitsSE topToBottom) (hnumRef : numRef + 1 < 2 ^ 32)
      (hrefs : ∀ v ∈ refs, FitsSE v) (hcount : refs.length = (int numRef).toNat)
      (hmaxRefs : maxRefs + 1 < 2 ^ 32) (hwidth : width + 1 < 2 ^ 32)
      (hheight : height + 1 < 2 ^ 32) :
      TailReads (seBits nonRef ++ₛ (seBits topToBottom ++ₛ (ueBits numRef ++ₛ
        (refs.flatMap seBits ++ₛ (ueBits maxRefs ++ₛ ([gaps] ++ₛ (ueBits width ++ₛ
          (ueBits height ++ₛ ([frameOnly] ++ₛ t)))))))))
        (codedSize width) (codedSize height) frameOnly

theorem fitsSE_of_codeNum {v : Int} (h : codeNum v + 1 < 2 ^ 32) : FitsSE v := by
  unfold codeNum at h
  constructor
  · split at h
    · omega
    · omega
  · split at h
    · omega
    · omega

/-- What was read as offsets are codes. -/
theorem refFrames_inv {k p : Nat} {s : Bits} {c : Cursor}
    (h : eval skip (refFrames k) (.behind p s) = some ((), c)) :
    ∃ refs : List Int, refs.length = k ∧ (∀ v ∈ refs, FitsSE v) ∧
      ∃ p' t, s = refs.flatMap seBits ++ₛ t ∧ c = .behind p' t := by
  induction k generalizing p s with
  | zero =>
    obtain ⟨-, rfl⟩ := Prod.mk.inj (Option.some.inj h)
    exact ⟨[], rfl, fun v hv => (List.not_mem_nil hv).elim, p, s, rfl, rfl⟩
  | succ k ih =>
    obtain ⟨v, c', hv, hrest⟩ := Program.eval_bind_eq_some.mp h
    obtain ⟨hfits, t', rfl, rfl⟩ := Program.eval_getSE_inv hv
    obtain ⟨refs, rfl, hrefs, p', t, rfl, rfl⟩ := ih hrest
    refine ⟨v :: refs, rfl, ?_, p', t, ?_, rfl⟩
    · intro w hw
      rcases List.mem_cons.mp hw with rfl | hw
      · exact fitsSE_of_codeNum hfits
      · exact hrefs w hw
    · rw [List.flatMap_cons, Stream'.append_append_stream]

/-- What was read behind the picture order are these fields. -/
theorem picture_inv {q q' : SeqParamSet} {p : Nat} {s : Bits} {c : Cursor}
    (h : eval skip (picture q) (.behind p s) = some ((true, q'), c)) :
    ∃ maxRefs width height gaps frameOnly t, maxRefs + 1 < 2 ^ 32 ∧ width + 1 < 2 ^ 32 ∧
      height + 1 < 2 ^ 32 ∧ (true, q') = pictured q width height frameOnly ∧
      s = ueBits maxRefs ++ₛ ([gaps] ++ₛ (ueBits width ++ₛ
        (ueBits height ++ₛ ([frameOnly] ++ₛ t)))) := by
  have hwhole := h
  obtain ⟨maxRefs, c1, h1, h⟩ := Program.eval_bind_eq_some.mp h
  obtain ⟨hmaxRefs, t1, rfl, rfl⟩ := Program.eval_getUE_inv h1
  obtain ⟨gaps, c2, h2, h⟩ := Program.eval_bind_eq_some.mp h
  obtain ⟨t2, rfl, rfl⟩ := Program.eval_getBit_inv h2
  obtain ⟨width, c3, h3, h⟩ := Program.eval_bind_eq_some.mp h
  obtain ⟨hwidth, t3, rfl, rfl⟩ := Program.eval_getUE_inv h3
  obtain ⟨height, c4, h4, -⟩ := Program.eval_bind_eq_some.mp h
  obtain ⟨hheight, t4, rfl, rfl⟩ := Program.eval_getUE_inv h4
  have hflag : t4 = [t4.head] ++ₛ t4.tail := (Stream'.eta t4).symm
  refine ⟨maxRefs, width, height, gaps, t4.head, t4.tail, hmaxRefs, hwidth, hheight, ?_, ?_⟩
  · obtain ⟨c', heval⟩ := eval_picture q hmaxRefs hwidth hheight gaps t4.head p t4.tail
    rw [← hflag, hwhole] at heval
    exact (Prod.mk.inj (Option.some.inj heval)).1
  · rw [← hflag]

/-- If the parser succeeds the rest of the set reads as some size. -/
theorem tail_inv {q q' : SeqParamSet} {p : Nat} {s : Bits} {c : Cursor}
    (h : eval skip (orderOffsets >>= fun _ => picture q) (.behind p s) = some ((true, q'), c)) :
    ∃ width height frameOnly, (true, q') = pictured q width height frameOnly ∧
      TailReads s (codedSize width) (codedSize height) frameOnly := by
  obtain ⟨⟨⟩, c4, horder, hpicture⟩ := Program.eval_bind_eq_some.mp h
  obtain ⟨nonRef, c1, h1, horder⟩ := Program.eval_bind_eq_some.mp horder
  obtain ⟨hnonRef, t1, rfl, rfl⟩ := Program.eval_getSE_inv h1
  obtain ⟨topToBottom, c2, h2, horder⟩ := Program.eval_bind_eq_some.mp horder
  obtain ⟨htopToBottom, t2, rfl, rfl⟩ := Program.eval_getSE_inv h2
  obtain ⟨numRef, c3, h3, horder⟩ := Program.eval_bind_eq_some.mp horder
  obtain ⟨hnumRef, t3, rfl, rfl⟩ := Program.eval_getUE_inv h3
  obtain ⟨refs, hcount, hrefs, p', t4, rfl, rfl⟩ := refFrames_inv horder
  obtain ⟨maxRefs, width, height, gaps, frameOnly, t, hmaxRefs, hwidth, hheight, hq, rfl⟩ :=
    picture_inv hpicture
  exact ⟨width, height, frameOnly, hq, .mk (fitsSE_of_codeNum hnonRef)
    (fitsSE_of_codeNum htopToBottom) hnumRef hrefs hcount hmaxRefs hwidth hheight⟩

/-- If the rest reads as a size the parser takes it. -/
theorem eval_tail (q : SeqParamSet) {s : Bits} {cx cy : Int} {frameOnly : Bool}
    (h : TailReads s cx cy frameOnly) (p : Nat) :
    ∃ width height, codedSize width = cx ∧ codedSize height = cy ∧
      ∃ c, eval skip (orderOffsets >>= fun _ => picture q) (.behind p s) =
        some (pictured q width height frameOnly, c) := by
  obtain ⟨hnonRef, htopToBottom, hnumRef, hrefs, hcount, hmaxRefs, hwidth, hheight⟩ := h
  refine ⟨_, _, rfl, rfl, ?_⟩
  rw [eval_bind_of (eval_orderOffsets hnonRef htopToBottom hnumRef hrefs hcount _ _)]
  exact eval_picture q hmaxRefs hwidth hheight _ _ _ _

/-! ### What is read right -/

/-- The parser's values are those of the parameter set. -/
structure Agrees (q : SeqParamSet) (sps : SPS) : Prop where
  profile : q.m_Profile = sps.profile.idc
  compat : q.m_Compatibility = BitVec.ofNat 8 sps.constraint_flags
  level : q.m_Level = sps.level_idc
  frameBits : q.m_FrameBits = sps.log2_max_frame_num_minus4 + 4
  width : q.m_cx = 16 * (sps.pic_width_in_mbs_minus1 + 1)
  height : q.m_cy = 16 * (sps.pic_height_in_map_units_minus1 + 1) *
    (if sps.frame_mbs_only_flag then 1 else 2)
  interlaced : q.Interlaced = !sps.frame_mbs_only_flag

/-- `Parse` returns true, with the values of the parameter set. -/
def ReadsRight (q : SeqParamSet) (sps : SPS) : Prop :=
  ∃ fuel q' n, Parse fuel q (.ofData sps.nalu) = .ok ((true, q'), n) ∧ Agrees q' sps

/-- The bits behind the order fields. -/
def behindOrder (sps : SPS) : Bits := sps.sizeBits ++ₛ (sps.rest ++ₛ ([true] ++ₛ zeros))

theorem type_nalu (sps : SPS) : (NALUnit.ofData sps.nalu).type = 7 := by
  obtain ⟨hlow, hhigh⟩ := sps.nal_ref_idc_range
  change sps.header &&& 0x1F#8 = 7
  unfold SPS.header
  interval_cases sps.nal_ref_idc <;> decide

theorem agrees_m_nalu {q : SeqParamSet} {sps : SPS} {n : NALUnit} :
    Agrees { q with m_nalu := n } sps ↔ Agrees q sps :=
  ⟨fun h => ⟨h.profile, h.compat, h.level, h.frameBits, h.width, h.height, h.interlaced⟩,
    fun h => ⟨h.profile, h.compat, h.level, h.frameBits, h.width, h.height, h.interlaced⟩⟩

/-- The parser reads right if and only if it does from the picture order on. -/
theorem readsRight_iff_eval (q : SeqParamSet) (sps : SPS) :
    ReadsRight q sps ↔
      ∃ q' c, eval skip (orderAndPicture sps.pic_order_cnt.type (kept q sps))
          (.behind (8 + sps.front.length) (sps.pic_order_cnt.bits ++ₛ behindOrder sps)) =
        some ((true, q'), c) ∧ Agrees q' sps := by
  have hcursor : (NALUnit.ofData sps.nalu).ResetBitstream.cursor =
      .behind 0 (wordBits 8 sps.header.toNat ++ₛ (sps.front ++ₛ
        (sps.pic_order_cnt.bits ++ₛ behindOrder sps))) := by
    rw [NALUnit.ResetBitstream_ofData, NALUnit.cursor_ofData sps.length_nalu_lt,
      sps.streamOf_nalu, SPS.bits, behindOrder]
    simp only [Stream'.append_append_stream]
  simp only [ReadsRight, Parse_eq (type_nalu sps), map_eq_ok]
  constructor
  · rintro ⟨fuel, q', n, ⟨⟨⟨parsed, q''⟩, n'⟩, hrun, hpair⟩, hagrees⟩
    obtain ⟨hq, rfl⟩ := Prod.mk.inj hpair
    obtain ⟨rfl, rfl⟩ := Prod.mk.inj hq
    have heval := Program.eval_of_run NALUnit.follows hrun
    rw [hcursor, eval_front] at heval
    exact ⟨q'', _, heval, agrees_m_nalu.mp hagrees⟩
  · rintro ⟨q', c, heval, hagrees⟩
    rw [← eval_front q sps sps.header, ← hcursor] at heval
    obtain ⟨n, hrun⟩ := Program.run_of_eval NALUnit.follows heval
    exact ⟨32, _, n, ⟨_, hrun, rfl⟩, agrees_m_nalu.mpr hagrees⟩

/-- A size of at most 2000 is kept as it is. -/
theorem codedSize_of_le {mbs : Nat} (h : 16 * (mbs + 1) ≤ 2000) :
    codedSize mbs = 16 * (mbs + 1) := by
  have hmbs : int (mbs : Int) = mbs := int_of_lt (by omega)
  have hnext : int ((mbs : Int) + 1) = mbs + 1 := int_of_range (by omega) (by omega)
  rw [codedSize, hmbs, hnext, int_of_range (by omega) (by omega), Int.mul_comm]

/-- The values are right when the size and the field coding are. -/
theorem agrees_pictured_iff {q q' : SeqParamSet} {sps : SPS} {width height : Nat}
    {frameOnly : Bool} (h : (true, q') = pictured (kept q sps) width height frameOnly) :
    Agrees q' sps ↔
      codedSize width = 16 * (sps.pic_width_in_mbs_minus1 + 1) ∧
        codedSize height = 16 * (sps.pic_height_in_map_units_minus1 + 1) ∧
        frameOnly = sps.frame_mbs_only_flag := by
  unfold pictured at h
  split at h
  · cases h
  · obtain ⟨-, rfl⟩ := Prod.mk.inj h
    constructor
    · intro hagrees
      have hframe : frameOnly = sps.frame_mbs_only_flag := Bool.not_inj hagrees.interlaced
      have hcy := hagrees.height
      refine ⟨hagrees.width, ?_, hframe⟩
      rw [← hframe] at hcy
      cases frameOnly with
      | false =>
        simp only [Bool.not_false, if_true, Bool.false_eq_true, if_false] at hcy
        omega
      | true =>
        simp only [Bool.not_true, Bool.false_eq_true, if_false, if_true] at hcy
        omega
    · rintro ⟨hcx, hcy, rfl⟩
      refine ⟨rfl, rfl, rfl, rfl, hcx, ?_, rfl⟩
      change (if !sps.frame_mbs_only_flag then codedSize height * 2 else codedSize height) = _
      rw [hcy]
      cases sps.frame_mbs_only_flag with
      | false => rfl
      | true => exact (Int.mul_one _).symm

/-- Where the flag does not end a byte, the picture's fields are read. -/
theorem eval_aligned (q : SeqParamSet) (sps : SPS)
    (h : ∀ c, sps.pic_order_cnt = .type1 c → ¬ FlagAtEnd sps) :
    ∃ c, eval skip (orderAndPicture sps.pic_order_cnt.type q)
        (.behind (8 + sps.front.length) (sps.pic_order_cnt.bits ++ₛ behindOrder sps)) =
      some (pictured q sps.pic_width_in_mbs_minus1 sps.pic_height_in_map_units_minus1
        sps.frame_mbs_only_flag, c) := by
  have hrefs := sps.max_num_ref_frames_le
  rw [orderAndPicture, eval_bind_of (eval_pictureOrder _ h _), behindOrder, SPS.sizeBits]
  simp only [Stream'.append_append_stream, Bool.not_true, Bool.false_eq_true, if_false]
  exact eval_picture q (by omega) sps.width_lt sps.height_lt _ _ _ _

/-- Where it does, the offsets are read from the flag itself on. -/
theorem eval_misaligned (q : SeqParamSet) {p : Nat} (h : p % 8 = 7) (s : Bits) :
    eval skip (orderAndPicture 1 q) (.behind p s) =
      eval skip (orderOffsets >>= fun _ => picture q) (.behind p s) := by
  have hskip : eval skip (skipBits 1) (.behind p s) = some ((), .behind p s) := by
    rw [eval_skipBits, skip_one_stays h]
  have horder : eval skip (pictureOrder 1) (.behind p s) =
      eval skip (orderOffsets >>= fun _ => pure true) (.behind p s) := by
    change eval skip (skipBits 1 >>= fun _ => orderOffsets >>= fun _ => pure true) _ = _
    rw [eval_bind_of hskip]
  rw [orderAndPicture, Program.eval_bind, horder, Program.eval_bind, Program.eval_bind,
    Option.bind_assoc]
  rfl

/-- The bits from the flag of picture order count type 1 on. -/
def fromFlag (sps : SPS) (c : OrderCycle) : Bits :=
  [c.delta_pic_order_always_zero_flag] ++ₛ (c.offsets ++ₛ behindOrder sps)

/-- A parameter set is read right if and only if the flag of picture order count
type 1 does not end a byte or, where it does, the bits from the flag on are by
chance those of another tail with the same size and field coding. -/
theorem readsRight_iff (q : SeqParamSet) (sps : SPS)
    (hwidth : 16 * (sps.pic_width_in_mbs_minus1 + 1) ≤ 2000)
    (hheight : 16 * (sps.pic_height_in_map_units_minus1 + 1) ≤ 2000) :
    ReadsRight q sps ↔ ∀ c, sps.pic_order_cnt = .type1 c → FlagAtEnd sps →
      TailReads (fromFlag sps c) (16 * (sps.pic_width_in_mbs_minus1 + 1))
        (16 * (sps.pic_height_in_map_units_minus1 + 1)) sps.frame_mbs_only_flag := by
  have hcx := codedSize_of_le hwidth
  have hcy := codedSize_of_le hheight
  have hpictured : ∀ {width height : Nat} (frameOnly : Bool),
      codedSize width = 16 * (sps.pic_width_in_mbs_minus1 + 1) →
      codedSize height = 16 * (sps.pic_height_in_map_units_minus1 + 1) →
      ∃ q', (true, q') = pictured (kept q sps) width height frameOnly := by
    intro width height frameOnly hw hh
    refine ⟨_, (if_neg ?_).symm⟩
    omega
  rw [readsRight_iff_eval]
  by_cases hend : ∃ c, sps.pic_order_cnt = .type1 c ∧ FlagAtEnd sps
  · obtain ⟨c, htype, hflag⟩ := hend
    have heval : eval skip (orderAndPicture sps.pic_order_cnt.type (kept q sps))
        (.behind (8 + sps.front.length) (sps.pic_order_cnt.bits ++ₛ behindOrder sps)) =
          eval skip (orderOffsets >>= fun _ => picture (kept q sps))
            (.behind (8 + sps.front.length) (fromFlag sps c)) := by
      rw [htype, fromFlag, ← Stream'.append_append_stream]
      exact eval_misaligned _ hflag _
    rw [heval]
    constructor
    · rintro ⟨q', c', hread, hagrees⟩ d hd -
      obtain rfl : c = d := PicOrderCnt.type1.inj (htype.symm.trans hd)
      obtain ⟨width, height, frameOnly, hq, htail⟩ := tail_inv hread
      obtain ⟨hw, hh, rfl⟩ := (agrees_pictured_iff hq).mp hagrees
      rw [← hw, ← hh]
      exact htail
    · intro htails
      obtain ⟨width, height, hw, hh, c', hread⟩ :=
        eval_tail (kept q sps) (htails c htype hflag) (8 + sps.front.length)
      obtain ⟨q', hq⟩ := hpictured sps.frame_mbs_only_flag hw hh
      rw [← hq] at hread
      exact ⟨q', c', hread, (agrees_pictured_iff hq).mpr ⟨hw, hh, rfl⟩⟩
  · have haligned : ∀ c, sps.pic_order_cnt = .type1 c → ¬ FlagAtEnd sps :=
      fun c htype hflag => hend ⟨c, htype, hflag⟩
    constructor
    · intro _ c htype hflag
      exact absurd hflag (haligned c htype)
    · intro _
      obtain ⟨c', hread⟩ := eval_aligned (kept q sps) sps haligned
      obtain ⟨q', hq⟩ := hpictured sps.frame_mbs_only_flag hcx hcy
      rw [← hq] at hread
      exact ⟨q', c', hread, (agrees_pictured_iff hq).mpr ⟨hcx, hcy, rfl⟩⟩

/-- The constructor; what it does not set is 0 here. -/
def fresh : SeqParamSet where
  m_nalu := .ofData []
  m_FrameBits := 0
  m_cx := 0
  m_cy := 0
  m_bFrameOnly := false
  m_Profile := 0
  m_Level := 0
  m_Compatibility := 0

/-- A baseline parameter set for 640 x 480. -/
def vga (order : PicOrderCnt) : SPS where
  nal_ref_idc := 3
  profile := .baseline
  constraint_flags := 0xc0
  level_idc := 30
  seq_parameter_set_id := 0
  log2_max_frame_num_minus4 := 1
  pic_order_cnt := order
  max_num_ref_frames := 1
  gaps_in_frame_num_value_allowed_flag := false
  pic_width_in_mbs_minus1 := 39
  pic_height_in_map_units_minus1 := 29
  frame_mbs_only_flag := true
  mb_adaptive_frame_field_flag := false
  direct_8x8_inference_flag := true
  frame_crop := none
  vui := none
  nal_ref_idc_range := by decide
  constraint_flags_lt := by decide
  level_idc_lt := by decide
  id_le := by decide
  log2_le := by decide
  max_num_ref_frames_le := by decide
  width_lt := by decide
  height_lt := by decide
  crop_lt := fun _ h => nomatch h
  vui_lt := fun _ h => nomatch h

theorem readsRight_iff_of_vga :
    16 * ((vga .type2).pic_width_in_mbs_minus1 + 1) ≤ 2000 ∧
      16 * ((vga .type2).pic_height_in_map_units_minus1 + 1) ≤ 2000 ∧
      ReadsRight fresh (vga .type2) :=
  have hwidth : 16 * ((vga .type2).pic_width_in_mbs_minus1 + 1) ≤ 2000 := by decide
  have hheight : 16 * ((vga .type2).pic_height_in_map_units_minus1 + 1) ≤ 2000 := by decide
  ⟨hwidth, hheight, (readsRight_iff fresh (vga .type2) hwidth hheight).mpr fun _ h => nomatch h⟩

/-- Type 1 with every offset zero and no reference frame in the cycle. -/
def zeroCycle : OrderCycle where
  delta_pic_order_always_zero_flag := false
  offset_for_non_ref_pic := 0
  offset_for_top_to_bottom_field := 0
  offset_for_ref_frame := []
  fits_non_ref := ⟨by decide, by decide⟩
  fits_top_to_bottom := ⟨by decide, by decide⟩
  fits_ref_frame := fun _ h => (List.not_mem_nil h).elim
  length_le := by decide

/-- With such a cycle the flag ends a byte, and the picture is read as one of
16 x 16 in fields. -/
theorem vga_misread :
    (vga (.type1 zeroCycle)).nalu = [0x67, 0x42, 0xc0, 0x1e, 0xa4, 0xe8, 0x0a, 0x03, 0xd9] ∧
      FlagAtEnd (vga (.type1 zeroCycle)) ∧ ¬ ReadsRight fresh (vga (.type1 zeroCycle)) := by
  have hend : FlagAtEnd (vga (.type1 zeroCycle)) := by
    unfold FlagAtEnd
    decide
  refine ⟨by decide, hend, ?_⟩
  rw [readsRight_iff_eval]
  rintro ⟨q', c, heval, hagrees⟩
  have hbits : fromFlag (vga (.type1 zeroCycle)) zeroCycle =
      seBits (-1) ++ₛ (seBits 0 ++ₛ (ueBits 1 ++ₛ ([40].flatMap seBits ++ₛ (ueBits 14 ++ₛ
        ([false] ++ₛ (ueBits 0 ++ₛ (ueBits 0 ++ₛ ([false] ++ₛ ([false, true] ++ₛ zeros))))))))) := by
    rw [fromFlag, behindOrder]
    simp only [← Stream'.append_append_stream]
    apply congrArg (· ++ₛ zeros)
    decide
  have htail : TailReads (fromFlag (vga (.type1 zeroCycle)) zeroCycle) (codedSize 0) (codedSize 0)
      false := by
    rw [hbits]
    exact .mk ⟨by decide, by decide⟩ ⟨by decide, by decide⟩ (by decide)
      (by rintro v hv; rw [List.mem_singleton.mp hv]; exact ⟨by decide, by decide⟩) rfl
      (by decide) (by decide) (by decide)
  obtain ⟨width, height, -, -, c', hread⟩ := eval_tail (kept fresh (vga (.type1 zeroCycle))) htail
    (8 + (vga (.type1 zeroCycle)).front.length)
  have hsame := (eval_misaligned (kept fresh (vga (.type1 zeroCycle))) hend
    (fromFlag (vga (.type1 zeroCycle)) zeroCycle)).trans hread
  have hq : (true, q') = pictured (kept fresh (vga (.type1 zeroCycle))) width height false := by
    have hstart : (PicOrderCnt.type1 zeroCycle).bits ++ₛ behindOrder (vga (.type1 zeroCycle)) =
        fromFlag (vga (.type1 zeroCycle)) zeroCycle := Stream'.append_append_stream _ _ _
    change eval skip (orderAndPicture 1 _) (.behind _ ((PicOrderCnt.type1 zeroCycle).bits ++ₛ _)) =
      _ at heval
    rw [hstart, hsame] at heval
    exact (Prod.mk.inj (Option.some.inj heval)).1.symm
  obtain ⟨-, -, hframe⟩ := (agrees_pictured_iff hq).mp hagrees
  cases hframe

end Reading

end SeqParamSet

end Sogx
