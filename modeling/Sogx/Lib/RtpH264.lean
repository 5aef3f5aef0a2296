import Sogx.Lib.Bytes

/-!
The RTP payload format of H.264: NAL units that travel in a payload of their
own, and units cut into FU-A fragments.

* `receive` is a strict receiver. It takes a single unit or the start of a
  fragmented one only between units, a further fragment only inside one, and a
  start that is also an end never.
* `fragments` cuts a unit into pieces of a given size; `receiveAll_fragments`
  gives the unit back when there is more than one piece, `receiveAll_single`
  is the unit that is not cut.
-/

namespace Sogx.Lib.RtpH264

/-- The type of the unit with this header byte. -/
def unitType (header : Byte) : Byte := header &&& 0x1f#8

/-- The F and NRI bits of a header byte. -/
def importance (header : Byte) : Byte := header &&& 0xe0#8

/-- The units received so far and the one that waits for its end. -/
structure Receiver where
  units : List (List Byte)
  unfinished : Option (List Byte)
deriving DecidableEq, Repr

/-- One payload; `none` when it is not a single unit or an FU-A fragment, or
comes out of place. -/
def receive (r : Receiver) : List Byte → Option Receiver
  | [] => none
  | header :: data =>
    if unitType header = 28#8 then
      match data with
      | [] => none
      | fu :: piece =>
        match decide (fu &&& 0x80#8 ≠ 0#8), decide (fu &&& 0x40#8 ≠ 0#8), r.unfinished with
        | true, false, none =>
          some ⟨r.units, some ((importance header ||| unitType fu) :: piece)⟩
        | false, false, some unit => some ⟨r.units, some (unit ++ piece)⟩
        | false, true, some unit => some ⟨r.units ++ [unit ++ piece], none⟩
        | _, _, _ => none
    else if 1#8 ≤ unitType header ∧ unitType header ≤ 23#8 then
      match r.unfinished with
      | none => some ⟨r.units ++ [header :: data], none⟩
      | some _ => none
    else none

def receiveAll : Receiver → List (List Byte) → Option Receiver
  | r, [] => some r
  | r, payload :: rest => (receive r payload).bind fun r' => receiveAll r' rest

/-- Payloads can be received in two parts. -/
theorem receiveAll_append {r r' : Receiver} {ps : List (List Byte)} (h : receiveAll r ps = some r')
    (qs : List (List Byte)) : receiveAll r (ps ++ qs) = receiveAll r' qs := by
  induction ps generalizing r with
  | nil =>
    cases h
    rfl
  | cons p ps ih =>
    obtain ⟨r₁, hp, hps⟩ := Option.bind_eq_some_iff.mp h
    rw [List.cons_append, receiveAll, hp]
    exact ih hps

/-- A fragment; the end flag is only looked at behind the start. -/
def fragment (header : Byte) (start stop : Bool) (piece : List Byte) : List Byte :=
  (importance header + 28#8) ::
    (if start then unitType header ||| 0x80#8
      else if stop then unitType header ||| 0x40#8 else unitType header) :: piece

/-- The fragments of the unit `header :: data`, from `data` on. -/
def fragments (size : Nat) (header : Byte) (start : Bool) (data : List Byte) : List (List Byte) :=
  if _h : data.length ≤ size ∨ size = 0 then [fragment header start true data]
  else fragment header start false (data.take size) ::
    fragments size header false (data.drop size)
termination_by data.length
decreasing_by
  rw [List.length_drop]
  omega

theorem fragments_ne_nil {size : Nat} {header : Byte} {start : Bool} {data : List Byte} :
    fragments size header start data ≠ [] := by
  rw [fragments]
  split
  · exact List.cons_ne_nil _ _
  · exact List.cons_ne_nil _ _

/-! ### The bits of the two header bytes -/

theorem unitType_indicator (header : Byte) : unitType (importance header + 28#8) = 28#8 := by
  revert header
  decide

theorem importance_indicator (header : Byte) :
    importance (importance header + 28#8) = importance header := by
  revert header
  decide

/-- The header of a first fragment has the start bit, and gives the header of the unit
back. -/
theorem start_bits (header : Byte) :
    (unitType header ||| 0x80#8) &&& 0x80#8 ≠ 0#8 ∧ (unitType header ||| 0x80#8) &&& 0x40#8 = 0#8 ∧
      importance header ||| unitType (unitType header ||| 0x80#8) = header := by
  revert header
  decide

theorem stop_bits (header : Byte) :
    (unitType header ||| 0x40#8) &&& 0x80#8 = 0#8 ∧
      (unitType header ||| 0x40#8) &&& 0x40#8 ≠ 0#8 := by
  revert header
  decide

theorem middle_bits (header : Byte) :
    unitType header &&& 0x80#8 = 0#8 ∧ unitType header &&& 0x40#8 = 0#8 := by
  revert header
  decide

/-! ### What the receiver makes of fragments -/

section Receiving

variable {size : Nat} {header : Byte} {units : List (List Byte)}

/-- A first fragment begins a unit. -/
theorem receive_start (piece : List Byte) :
    receive ⟨units, none⟩ (fragment header true false piece) =
      some ⟨units, some (header :: piece)⟩ := by
  obtain ⟨hstart, hstop, hheader⟩ := start_bits header
  simp [receive, fragment, unitType_indicator, importance_indicator, hstart, hstop, hheader]

/-- A fragment in the middle is put behind what there is of the unit. -/
theorem receive_middle (unit piece : List Byte) :
    receive ⟨units, some unit⟩ (fragment header false false piece) =
      some ⟨units, some (unit ++ piece)⟩ := by
  obtain ⟨hstart, hstop⟩ := middle_bits header
  simp [receive, fragment, unitType_indicator, hstart, hstop]

/-- A last fragment ends the unit. -/
theorem receive_stop (unit piece : List Byte) :
    receive ⟨units, some unit⟩ (fragment header false true piece) =
      some ⟨units ++ [unit ++ piece], none⟩ := by
  obtain ⟨hstart, hstop⟩ := stop_bits header
  simp [receive, fragment, unitType_indicator, hstart, hstop]

/-- Inside a unit the remaining fragments complete it. -/
theorem receiveAll_rest (unit data : List Byte) :
    receiveAll ⟨units, some unit⟩ (fragments size header false data) =
      some ⟨units ++ [unit ++ data], none⟩ := by
  rw [fragments]
  split
  · simp [receiveAll, receive_stop]
  · rename_i hlong
    rw [receiveAll, receive_middle, Option.bind_some, receiveAll_rest]
    simp
termination_by data.length
decreasing_by
  rw [List.length_drop]
  omega

/-- A unit of more than one piece arrives as it was. -/
theorem receiveAll_fragments {data : List Byte} (hsize : 0 < size) (hlong : size < data.length) :
    receiveAll ⟨units, none⟩ (fragments size header true data) =
      some ⟨units ++ [header :: data], none⟩ := by
  rw [fragments, dif_neg (by omega), receiveAll, receive_start, Option.bind_some, receiveAll_rest]
  simp

/-- A unit that comes as one payload is taken as it is. -/
theorem receiveAll_single {data : List Byte} (hlow : 1#8 ≤ unitType header)
    (hhigh : unitType header ≤ 23#8) :
    receiveAll ⟨units, none⟩ [header :: data] = some ⟨units ++ [header :: data], none⟩ := by
  have hne : unitType header ≠ 28#8 := by
    intro h
    rw [h] at hhigh
    exact absurd hhigh (by decide)
  simp [receiveAll, receive, hne, hlow, hhigh]

end Receiving

/-- No fragment is longer than its piece and the two header bytes. -/
theorem length_le_of_mem_fragments {size : Nat} {header : Byte} {start : Bool} {data : List Byte}
    (hsize : 0 < size) : ∀ p ∈ fragments size header start data, p.length ≤ size + 2 := by
  intro p hp
  rw [fragments] at hp
  split at hp
  · rename_i hshort
    rw [List.mem_singleton.mp hp]
    simp only [fragment, List.length_cons]
    omega
  · rcases List.mem_cons.mp hp with rfl | hrest
    · simp only [fragment, List.length_cons, List.length_take]
      omega
    · exact length_le_of_mem_fragments hsize p hrest
termination_by data.length
decreasing_by
  rw [List.length_drop]
  omega

end Sogx.Lib.RtpH264
