import Sogx.Lib.Bitstream
import Mathlib.Tactic.IntervalCases

/-!
The sequence parameter set of H.264 as the standard writes it (profiles 66, 77,
88, 100, 110 and 122): a value with every field in its range, and its bits.

The bits come in three parts, `front` up to the picture order count type,
`order` with the fields of that type, and `back` from the number of reference
frames on.
-/

namespace Sogx.Lib.Bitstream

/-- Codes of fewer than 64 bits. -/
theorem length_ueBits_le {v : Nat} (h : v + 1 < 2 ^ 32) : (ueBits v).length ≤ 63 := by
  have hlt := ueZeros_lt_iff.mpr h
  rw [length_ueBits]
  omega

/-- The values of se(v). -/
def FitsSE (v : Int) : Prop := -2 ^ 31 < v ∧ v < 2 ^ 31

/-- A signed number of 32 bits has a code. -/
theorem FitsSE.codeNum_lt {v : Int} (h : FitsSE v) : codeNum v + 1 < 2 ^ 32 := by
  obtain ⟨hlow, hhigh⟩ := h
  unfold codeNum
  split
  · omega
  · omega

theorem length_seBits_le {v : Int} (h : FitsSE v) : (seBits v).length ≤ 63 :=
  length_ueBits_le h.codeNum_lt

/-- A list of pieces of at most `c` bits each. -/
theorem length_flatMap_le {α : Type} {f : α → List Bool} {c : Nat} {l : List α}
    (h : ∀ a ∈ l, (f a).length ≤ c) : (l.flatMap f).length ≤ c * l.length := by
  induction l with
  | nil => exact Nat.le_refl 0
  | cons a l ih =>
    have hfirst := h a List.mem_cons_self
    have hrest := ih fun b hb => h b (List.mem_cons_of_mem a hb)
    rw [List.flatMap_cons, List.length_append, List.length_cons, Nat.mul_succ]
    omega

/-! ### Scaling lists -/

/-- The scales of a list before the place where it stops changing, if it does. -/
structure ScalingList (size : Nat) where
  scales : List Int
  length_le : scales.length ≤ size
  range : ∀ s ∈ scales, 1 ≤ s ∧ s ≤ 255

/-- delta_scale: from -128 to 127, the difference modulo 256. -/
def deltaScale (last next : Int) : Int := (next - last + 128) % 256 - 128

/-- The differences that are written; a scale of 0 ends a list early. -/
def deltas : Nat → Int → List Int → List Int
  | 0, _, _ => []
  | _ + 1, last, [] => [deltaScale last 0]
  | size + 1, last, s :: scales => deltaScale last s :: deltas size s scales

def ScalingList.bits {size : Nat} (l : ScalingList size) : List Bool :=
  (deltas size 8 l.scales).flatMap seBits

/-- The difference of two scales has a code. -/
theorem fitsSE_deltaScale (last next : Int) : FitsSE (deltaScale last next) := by
  unfold deltaScale
  constructor
  · omega
  · omega

theorem length_deltas_le (size : Nat) (last : Int) (scales : List Int) :
    (deltas size last scales).length ≤ size := by
  induction size generalizing last scales with
  | zero => exact Nat.le_refl 0
  | succ size ih =>
    cases scales with
    | nil => exact Nat.succ_le_succ (Nat.zero_le size)
    | cons s scales => exact Nat.succ_le_succ (ih s scales)

theorem mem_deltas {size : Nat} {last d : Int} {scales : List Int}
    (h : d ∈ deltas size last scales) : FitsSE d := by
  induction size generalizing last scales with
  | zero => cases h
  | succ size ih =>
    cases scales with
    | nil =>
      rw [List.mem_singleton.mp h]
      exact fitsSE_deltaScale last 0
    | cons s scales =>
      rcases List.mem_cons.mp h with rfl | hrest
      · exact fitsSE_deltaScale last s
      · exact ih hrest

theorem ScalingList.length_bits_le {size : Nat} (l : ScalingList size) :
    l.bits.length ≤ 63 * size := by
  have hpieces := length_flatMap_le (f := seBits) (c := 63) (l := deltas size 8 l.scales)
    fun d hd => length_seBits_le (mem_deltas hd)
  have hlen := length_deltas_le size 8 l.scales
  unfold ScalingList.bits
  omega

/-- The first six lists are for blocks of 4x4, the others for 8x8. -/
def listSize (i : Nat) : Nat := if i < 6 then 16 else 64

/-- seq_scaling_list_present_flag and the list. -/
def listBits {size : Nat} : Option (ScalingList size) → List Bool
  | none => [false]
  | some l => true :: l.bits

theorem length_listBits_le {i : Nat} (l : Option (ScalingList (listSize i))) :
    (listBits l).length ≤ 63 * 64 + 1 := by
  have hsize : listSize i ≤ 64 := by
    unfold listSize
    split
    · norm_num
    · exact Nat.le_refl 64
  cases l with
  | none => norm_num [listBits]
  | some l =>
    have hbits := l.length_bits_le
    rw [listBits, List.length_cons]
    omega

/-! ### Fields -/

/-- The fields of the high profiles; without 4:4:4 there are eight lists. -/
structure HighFields where
  chroma_format_idc : Nat
  bit_depth_luma_minus8 : Nat
  bit_depth_chroma_minus8 : Nat
  qpprime_y_zero_transform_bypass_flag : Bool
  scaling : Option ((i : Nat) → Option (ScalingList (listSize i)))
  chroma_le : chroma_format_idc ≤ 2
  luma_le : bit_depth_luma_minus8 ≤ 6
  chroma_depth_le : bit_depth_chroma_minus8 ≤ 6

def scalingBits : Option ((i : Nat) → Option (ScalingList (listSize i))) → List Bool
  | none => [false]
  | some lists => true :: (List.range 8).flatMap fun i => listBits (lists i)

def HighFields.bits (f : HighFields) : List Bool :=
  ueBits f.chroma_format_idc ++ (ueBits f.bit_depth_luma_minus8 ++
    (ueBits f.bit_depth_chroma_minus8 ++ ([f.qpprime_y_zero_transform_bypass_flag] ++
      scalingBits f.scaling)))

inductive Profile where
  | baseline | main | extended
  | high (f : HighFields)
  | high10 (f : HighFields)
  | high422 (f : HighFields)

def Profile.idc : Profile → Nat
  | .baseline => 66
  | .main => 77
  | .extended => 88
  | .high _ => 100
  | .high10 _ => 110
  | .high422 _ => 122

def Profile.fields : Profile → Option HighFields
  | .baseline | .main | .extended => none
  | .high f | .high10 f | .high422 f => some f

/-- The bits between the parameter set's number and log2_max_frame_num. -/
def Profile.bits (p : Profile) : List Bool := (p.fields.map HighFields.bits).getD []

/-- The fields of picture order count type 1. -/
structure OrderCycle where
  delta_pic_order_always_zero_flag : Bool
  offset_for_non_ref_pic : Int
  offset_for_top_to_bottom_field : Int
  offset_for_ref_frame : List Int
  fits_non_ref : FitsSE offset_for_non_ref_pic
  fits_top_to_bottom : FitsSE offset_for_top_to_bottom_field
  fits_ref_frame : ∀ v ∈ offset_for_ref_frame, FitsSE v
  length_le : offset_for_ref_frame.length ≤ 255

/-- What stands behind the flag. -/
def OrderCycle.offsets (c : OrderCycle) : List Bool :=
  seBits c.offset_for_non_ref_pic ++ (seBits c.offset_for_top_to_bottom_field ++
    (ueBits c.offset_for_ref_frame.length ++ c.offset_for_ref_frame.flatMap seBits))

inductive PicOrderCnt where
  | type0 (log2_max_pic_order_cnt_lsb_minus4 : Nat) (h : log2_max_pic_order_cnt_lsb_minus4 ≤ 12)
  | type1 (c : OrderCycle)
  | type2

def PicOrderCnt.type : PicOrderCnt → Nat
  | type0 _ _ => 0
  | type1 _ => 1
  | type2 => 2

def PicOrderCnt.bits : PicOrderCnt → List Bool
  | type0 log2 _ => ueBits log2
  | type1 c => [c.delta_pic_order_always_zero_flag] ++ c.offsets
  | type2 => []

/-- A sequence parameter set. Of the picture's use (`vui`) only the bits matter
here: there are fewer than 2^16 of them. -/
structure SPS where
  nal_ref_idc : Nat
  profile : Profile
  constraint_flags : Nat
  level_idc : Nat
  seq_parameter_set_id : Nat
  log2_max_frame_num_minus4 : Nat
  pic_order_cnt : PicOrderCnt
  max_num_ref_frames : Nat
  gaps_in_frame_num_value_allowed_flag : Bool
  pic_width_in_mbs_minus1 : Nat
  pic_height_in_map_units_minus1 : Nat
  frame_mbs_only_flag : Bool
  mb_adaptive_frame_field_flag : Bool
  direct_8x8_inference_flag : Bool
  frame_crop : Option (Fin 4 → Nat)
  vui : Option (List Bool)
  nal_ref_idc_range : 1 ≤ nal_ref_idc ∧ nal_ref_idc ≤ 3
  constraint_flags_lt : constraint_flags < 256
  level_idc_lt : level_idc < 256
  id_le : seq_parameter_set_id ≤ 31
  log2_le : log2_max_frame_num_minus4 ≤ 12
  max_num_ref_frames_le : max_num_ref_frames ≤ 16
  width_lt : pic_width_in_mbs_minus1 + 1 < 2 ^ 32
  height_lt : pic_height_in_map_units_minus1 + 1 < 2 ^ 32
  crop_lt : ∀ offsets, frame_crop = some offsets → ∀ i, offsets i + 1 < 2 ^ 32
  vui_lt : ∀ bits, vui = some bits → bits.length < 2 ^ 16

namespace SPS

/-- A flag, and what follows when it is set. -/
def optional {α : Type} (bits : α → List Bool) : Option α → List Bool
  | none => [false]
  | some a => true :: bits a

def front (sps : SPS) : List Bool :=
  wordBits 8 sps.profile.idc ++ (wordBits 8 sps.constraint_flags ++ (wordBits 8 sps.level_idc ++
    (ueBits sps.seq_parameter_set_id ++ (sps.profile.bits ++
      (ueBits sps.log2_max_frame_num_minus4 ++ ueBits sps.pic_order_cnt.type)))))

/-- The picture's size, between the reference frames and the field coding. -/
def sizeBits (sps : SPS) : List Bool :=
  ueBits sps.max_num_ref_frames ++ ([sps.gaps_in_frame_num_value_allowed_flag] ++
    (ueBits sps.pic_width_in_mbs_minus1 ++ (ueBits sps.pic_height_in_map_units_minus1 ++
      [sps.frame_mbs_only_flag])))

def rest (sps : SPS) : List Bool :=
  (if sps.frame_mbs_only_flag then [] else [sps.mb_adaptive_frame_field_flag]) ++
    ([sps.direct_8x8_inference_flag] ++
      (optional (fun offsets => (List.finRange 4).flatMap fun i => ueBits (offsets i))
        sps.frame_crop ++ optional id sps.vui))

def bits (sps : SPS) : List Bool :=
  sps.front ++ (sps.pic_order_cnt.bits ++ (sps.sizeBits ++ sps.rest))

/-- The first byte of the NAL unit. -/
def header (sps : SPS) : Byte := BitVec.ofNat 8 (32 * sps.nal_ref_idc + 7)

/-- The NAL unit. -/
def nalu (sps : SPS) : List Byte := sps.header :: escape 0 (rbsp sps.bits)

/-! ### The size of a unit -/

theorem length_ueBits_le_of_le {v n : Nat} (h : v ≤ n) (hn : n + 1 < 2 ^ 32) :
    (ueBits v).length ≤ 63 :=
  length_ueBits_le (by omega)

theorem length_scalingBits_le (s : Option ((i : Nat) → Option (ScalingList (listSize i)))) :
    (scalingBits s).length ≤ 1 + 4033 * 8 := by
  cases s with
  | none => norm_num [scalingBits]
  | some lists =>
    have hlists := length_flatMap_le (f := fun i => listBits (lists i)) (c := 4033)
      (l := List.range 8) fun i _ => length_listBits_le (lists i)
    rw [List.length_range] at hlists
    rw [scalingBits, List.length_cons]
    omega

theorem length_highFields_le (f : HighFields) : f.bits.length ≤ 2 ^ 16 := by
  have hchroma := length_ueBits_le_of_le f.chroma_le (by norm_num)
  have hluma := length_ueBits_le_of_le f.luma_le (by norm_num)
  have hdepth := length_ueBits_le_of_le f.chroma_depth_le (by norm_num)
  have hscaling := length_scalingBits_le f.scaling
  simp only [HighFields.bits, List.length_append, List.length_singleton]
  omega

theorem length_profile_le (p : Profile) : p.bits.length ≤ 2 ^ 16 := by
  unfold Profile.bits
  cases p.fields with
  | none => norm_num
  | some f => exact length_highFields_le f

theorem length_order_le (p : PicOrderCnt) : p.bits.length ≤ 2 ^ 16 := by
  cases p with
  | type0 log2 h =>
    have hlog2 := length_ueBits_le_of_le h (by norm_num)
    change (ueBits log2).length ≤ _
    omega
  | type1 c =>
    have hnonRef := length_seBits_le c.fits_non_ref
    have htopBottom := length_seBits_le c.fits_top_to_bottom
    have hcount := length_ueBits_le_of_le c.length_le (by norm_num)
    have hrefs := length_flatMap_le (f := seBits) (c := 63) (l := c.offset_for_ref_frame)
      fun v hv => length_seBits_le (c.fits_ref_frame v hv)
    have hlen := c.length_le
    simp only [PicOrderCnt.bits, OrderCycle.offsets, List.length_append, List.length_singleton]
    omega
  | type2 => exact Nat.zero_le _

/-- What stands in front of the size of the picture is short. -/
theorem length_front_le (sps : SPS) : sps.front.length ≤ 2 ^ 17 := by
  have hid := length_ueBits_le_of_le sps.id_le (by norm_num)
  have hprofile := length_profile_le sps.profile
  have hlog2 := length_ueBits_le_of_le sps.log2_le (by norm_num)
  have htype : (ueBits sps.pic_order_cnt.type).length ≤ 63 := by
    have hle : sps.pic_order_cnt.type ≤ 2 := by
      cases sps.pic_order_cnt with
      | type0 _ _ => exact Nat.zero_le 2
      | type1 _ => exact Nat.le_succ 1
      | type2 => exact Nat.le_refl 2
    exact length_ueBits_le_of_le hle (by norm_num)
  simp only [front, List.length_append, length_wordBits]
  omega

theorem length_sizeBits_le (sps : SPS) : sps.sizeBits.length ≤ 2 ^ 8 := by
  have hrefs := length_ueBits_le_of_le sps.max_num_ref_frames_le (by norm_num)
  have hwidth := length_ueBits_le sps.width_lt
  have hheight := length_ueBits_le sps.height_lt
  simp only [sizeBits, List.length_append, List.length_singleton]
  omega

/-- What stands behind the size of the picture is short, so that every record has room for the
set. -/
theorem length_rest_le (sps : SPS) : sps.rest.length ≤ 2 ^ 17 := by
  have hfield : (if sps.frame_mbs_only_flag then []
      else [sps.mb_adaptive_frame_field_flag]).length ≤ 1 := by
    split
    · exact Nat.zero_le 1
    · exact Nat.le_refl 1
  have hcrop : (optional (fun offsets => (List.finRange 4).flatMap fun i => ueBits (offsets i))
      sps.frame_crop).length ≤ 1 + 63 * 4 := by
    cases h : sps.frame_crop with
    | none => norm_num [optional]
    | some offsets =>
      have hoffsets := length_flatMap_le (f := fun i => ueBits (offsets i)) (c := 63)
        (l := List.finRange 4) fun i _ => length_ueBits_le (sps.crop_lt offsets h i)
      rw [List.length_finRange] at hoffsets
      rw [optional, List.length_cons]
      omega
  have hvui : (optional id sps.vui).length ≤ 2 ^ 16 := by
    cases h : sps.vui with
    | none => norm_num [optional]
    | some bits =>
      have hlen := sps.vui_lt bits h
      rw [optional, List.length_cons, id]
      omega
  simp only [rest, List.length_append, List.length_singleton]
  omega

/-- A parameter set is nowhere near 2^31 bytes. -/
theorem length_nalu_lt (sps : SPS) : sps.nalu.length < 2 ^ 31 := by
  have hfront := length_front_le sps
  have horder := length_order_le sps.pic_order_cnt
  have hsize := length_sizeBits_le sps
  have hrest := length_rest_le sps
  have hescape := length_escape_le 0 (rbsp sps.bits)
  have hpack := length_pack_le (sps.bits ++ [true])
  have hbits : (sps.bits ++ [true]).length = sps.front.length +
      (sps.pic_order_cnt.bits.length + (sps.sizeBits.length + sps.rest.length)) + 1 := by
    simp only [bits, List.length_append, List.length_singleton]
  rw [nalu, List.length_cons]
  unfold rbsp at *
  omega

/-- The bits of a unit: its first byte, the parameter set, the stop bit. -/
theorem streamOf_nalu (sps : SPS) :
    streamOf (payload 0 sps.nalu) =
      wordBits 8 sps.header.toNat ++ₛ (sps.bits ++ₛ ([true] ++ₛ zeros)) := by
  have hne : sps.header ≠ 0 := by
    obtain ⟨hlow, hhigh⟩ := sps.nal_ref_idc_range
    unfold header
    interval_cases sps.nal_ref_idc <;> decide
  rw [nalu, payload_cons_of_ne_zero hne, payload_escape, streamOf_cons, rbsp, streamOf_pack,
    Stream'.append_append_stream]

end SPS

end Sogx.Lib.Bitstream
