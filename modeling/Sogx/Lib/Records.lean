import Sogx.Lib.Bytes

/-!
Streams of length-prefixed records: each record stands behind its length, a
`w`-byte big-endian number.

`encode` is the stream of a list of records. `whole` says which records lie
completely in the first `k` bytes of a stream, which is what a reader that sees
only those bytes can hand out; `whole_prefix` and `encode_whole_le` place them
at the front of the stream, `whole_of_le` is the uncut case.

`ends_or_cut` is the shape of arbitrary bytes: whole records, and then either
an end mark (`Ends`) or a record that the bytes do not hold (`Cut`).

`StandsAt` places a piece at an offset of a byte string; a layout of several
pieces comes apart with `standsAt_append`, and a length field with
`standsAt_toBE`.
-/

namespace Sogx.Lib.Records

/-- One record behind its length. -/
def frame (w : Nat) (r : List Byte) : List Byte := toBE w r.length ++ r

def encode (w : Nat) (rs : List (List Byte)) : List Byte := rs.flatMap (frame w)

/-- The records that lie whole in the first `k` bytes of their stream. -/
def whole (w : Nat) : List (List Byte) → Nat → List (List Byte)
  | [], _ => []
  | r :: rs, k => if w + r.length ≤ k then r :: whole w rs (k - (w + r.length)) else []

/-- A record is not empty and its length fits the length field. -/
def Fits (w : Nat) (r : List Byte) : Prop := r ≠ [] ∧ r.length < 256 ^ w

instance (w : Nat) (r : List Byte) : Decidable (Fits w r) := by
  unfold Fits; infer_instance

variable {w : Nat}

@[simp] theorem length_frame (r : List Byte) : (frame w r).length = w + r.length := by
  simp [frame]

@[simp] theorem encode_nil : encode w [] = [] := rfl

@[simp] theorem encode_cons (r : List Byte) (rs : List (List Byte)) :
    encode w (r :: rs) = frame w r ++ encode w rs := rfl

@[simp] theorem encode_append (rs rs' : List (List Byte)) :
    encode w (rs ++ rs') = encode w rs ++ encode w rs' :=
  List.flatMap_append

theorem length_le_length_encode {rs : List (List Byte)} {r : List Byte} (h : r ∈ rs) :
    r.length ≤ (encode w rs).length := by
  obtain ⟨before, behind, rfl⟩ := List.append_of_mem h
  rw [encode_append, encode_cons, List.length_append, List.length_append, length_frame]
  omega

/-- The records that are whole are the first ones. -/
theorem whole_prefix (rs : List (List Byte)) (k : Nat) : whole w rs k <+: rs := by
  induction rs generalizing k with
  | nil => exact List.prefix_refl _
  | cons r rs ih =>
    rw [whole]
    split
    · exact List.cons_prefix_cons.mpr ⟨rfl, ih _⟩
    · exact List.nil_prefix

theorem encode_whole_le (rs : List (List Byte)) (k : Nat) :
    (encode w (whole w rs k)).length ≤ k := by
  induction rs generalizing k with
  | nil => simp [whole]
  | cons r rs ih =>
    rw [whole]
    split
    · rename_i hfit
      have hrest := ih (k - (w + r.length))
      simp only [encode_cons, List.length_append, length_frame]
      omega
    · simp

theorem whole_of_le {rs : List (List Byte)} {k : Nat} (h : (encode w rs).length ≤ k) :
    whole w rs k = rs := by
  induction rs generalizing k with
  | nil => rfl
  | cons r rs ih =>
    simp only [encode_cons, List.length_append, length_frame] at h
    rw [whole, if_pos (by omega), ih (by omega)]

/-! ### Arbitrary bytes -/

/-- The number in the length field at the front of `bytes`. -/
def header (w : Nat) (bytes : List Byte) : Nat := ofBE (bytes.take w)

/-- No further record: the length field is incomplete or zero. -/
def Ends (w : Nat) (bytes : List Byte) : Prop := bytes.length < w ∨ header w bytes = 0

/-- A record is announced that is too long for readers of lengths below
`bound`, or longer than the bytes that follow. -/
def Cut (w bound : Nat) (bytes : List Byte) : Prop :=
  w ≤ bytes.length ∧ 0 < header w bytes ∧
    (bound ≤ header w bytes ∨ bytes.length < w + header w bytes)

theorem header_lt {bytes : List Byte} (h : w ≤ bytes.length) : header w bytes < 256 ^ w := by
  have hlt := ofBE_lt (bytes.take w)
  rwa [List.length_take_of_le h] at hlt

/-- The number in a four-byte length field. -/
theorem header_four_lt {bytes : List Byte} (h : 4 ≤ bytes.length) : header 4 bytes < 2 ^ 32 := by
  simpa using header_lt h

/-- The header of a record is its length. -/
theorem header_frame {r : List Byte} (h : r.length < 256 ^ w) (rest : List Byte) :
    header w (frame w r ++ rest) = r.length := by
  have htake : (frame w r ++ rest).take w = toBE w r.length := by
    simp [frame]
  rw [header, htake, ofBE_toBE_of_lt h]

/-- Bytes whose length field is covered by what follows start with a frame. -/
theorem eq_frame_append {bytes : List Byte} (h : w + header w bytes ≤ bytes.length) :
    bytes = frame w ((bytes.drop w).take (header w bytes)) ++
      bytes.drop (w + header w bytes) := by
  have hlen : ((bytes.drop w).take (header w bytes)).length = header w bytes := by
    rw [List.length_take, List.length_drop]
    omega
  have hfield : toBE w (header w bytes) = bytes.take w := by
    have hw : (bytes.take w).length = w := List.length_take_of_le (by omega)
    simpa [header, hw] using toBE_ofBE (bytes.take w)
  rw [frame, hlen, hfield, List.append_assoc, ← List.drop_drop, List.take_append_drop,
    List.take_append_drop]

/-- Any bytes are records and a rest that ends the file or is cut off, by the length of the
bytes. -/
theorem ends_or_cut (bound : Nat) (bytes : List Byte) :
    ∃ rs rest, (∀ r ∈ rs, r ≠ [] ∧ r.length < bound) ∧ bytes = encode w rs ++ rest ∧
      (Ends w rest ∨ Cut w bound rest) := by
  by_cases hends : Ends w bytes
  · exact ⟨[], bytes, by simp, rfl, .inl hends⟩
  by_cases hcut : Cut w bound bytes
  · exact ⟨[], bytes, by simp, rfl, .inr hcut⟩
  -- a whole record stands in front; go on behind it
  simp only [Ends, not_or] at hends
  simp only [Cut, not_and, not_or] at hcut
  have hpos : 0 < header w bytes := by omega
  have hfits := hcut (by omega) hpos
  have hwhole : w + header w bytes ≤ bytes.length := by omega
  have hframe := eq_frame_append hwhole
  have hlen : ((bytes.drop w).take (header w bytes)).length = header w bytes := by
    rw [List.length_take, List.length_drop]
    omega
  obtain ⟨rs, rest, hall, hbytes, hrest⟩ :=
    ends_or_cut bound (bytes.drop (w + header w bytes))
  refine ⟨(bytes.drop w).take (header w bytes) :: rs, rest, ?_, ?_, hrest⟩
  · intro r hr
    rcases List.mem_cons.mp hr with rfl | hmem
    · refine ⟨List.ne_nil_of_length_pos ?_, ?_⟩ <;> omega
    · exact hall r hmem
  · rw [encode_cons, List.append_assoc, ← hbytes]
    exact hframe
termination_by bytes.length
decreasing_by
  simp only [List.length_drop]
  omega

/-! ### Pieces of a byte string -/

/-- `piece` stands at offset `k` of `bytes`. -/
def StandsAt (piece : List Byte) (k : Nat) (bytes : List Byte) : Prop := piece <+: bytes.drop k

instance (piece : List Byte) (k : Nat) (bytes : List Byte) : Decidable (StandsAt piece k bytes) :=
  inferInstanceAs (Decidable (piece <+: bytes.drop k))

theorem StandsAt.take {piece bytes : List Byte} {k : Nat} (h : StandsAt piece k bytes) :
    (bytes.drop k).take piece.length = piece :=
  (List.prefix_iff_eq_take.mp h).symm

/-- A non-empty piece ends inside the bytes; an empty one stands anywhere. -/
theorem StandsAt.le_length {piece bytes : List Byte} {k : Nat} (h : StandsAt piece k bytes)
    (hne : piece ≠ []) : k + piece.length ≤ bytes.length := by
  have hle := h.length_le
  have hpos := List.length_pos_iff.mpr hne
  rw [List.length_drop] at hle
  omega

theorem standsAt_nil (k : Nat) (bytes : List Byte) : StandsAt [] k bytes := List.nil_prefix

theorem standsAt_append {p q bytes : List Byte} {k : Nat} :
    StandsAt (p ++ q) k bytes ↔ StandsAt p k bytes ∧ StandsAt q (k + p.length) bytes := by
  unfold StandsAt
  rw [← List.drop_drop]
  constructor
  · rintro ⟨tail, htail⟩
    rw [← htail, List.append_assoc, List.drop_left]
    exact ⟨List.prefix_append _ _, List.prefix_append _ _⟩
  · rintro ⟨⟨rest, hrest⟩, hq⟩
    rw [← hrest] at hq ⊢
    rw [List.drop_left] at hq
    exact (List.prefix_append_right_inj p).mpr hq

/-- The front of two pieces, when it covers the first. -/
theorem standsAt_take_append {p q bytes : List Byte} {k n : Nat} (h : p.length ≤ n) :
    StandsAt ((p ++ q).take n) k bytes ↔
      StandsAt p k bytes ∧ StandsAt (q.take (n - p.length)) (k + p.length) bytes := by
  rw [List.take_append, List.take_of_length_le h, standsAt_append]

/-- A piece that ends inside the first `n` bytes stands there too. -/
theorem StandsAt.front {piece bytes : List Byte} {k n : Nat} (h : StandsAt piece k bytes)
    (hle : k + piece.length ≤ n) : StandsAt piece k (bytes.take n) := by
  unfold StandsAt
  rw [List.drop_take, List.prefix_take_iff]
  exact ⟨h, Nat.le_sub_of_add_le' hle⟩

/-- What stands at a place still does with bytes behind the file. -/
theorem StandsAt.extend {piece bytes : List Byte} {k : Nat} (h : StandsAt piece k bytes)
    (tail : List Byte) : StandsAt piece k (bytes ++ tail) := by
  unfold StandsAt
  rw [List.drop_append]
  exact h.trans (List.prefix_append _ _)

theorem standsAt_middle (p q r : List Byte) : StandsAt q p.length (p ++ (q ++ r)) := by
  unfold StandsAt
  rw [List.drop_left]
  exact List.prefix_append q r

theorem standsAt_iff_take {piece bytes : List Byte} {k : Nat} {n : Nat} (h : piece.length = n) :
    StandsAt piece k bytes ↔ (bytes.drop k).take n = piece := by
  subst h
  exact List.prefix_iff_eq_take.trans eq_comm

/-- A length field at an offset is the number read back there. -/
theorem standsAt_toBE {bytes : List Byte} {k n : Nat} (hw : 0 < w) (hn : n < 256 ^ w) :
    StandsAt (toBE w n) k bytes ↔ k + w ≤ bytes.length ∧ header w (bytes.drop k) = n := by
  have hlen : (toBE w n).length = w := length_toBE w n
  constructor
  · intro h
    have hle : k + w ≤ bytes.length := by
      have hend := h.le_length (List.ne_nil_of_length_pos (by omega))
      omega
    refine ⟨hle, ?_⟩
    rw [header, (standsAt_iff_take hlen).mp h, ofBE_toBE_of_lt hn]
  · rintro ⟨hle, rfl⟩
    have htake : ((bytes.drop k).take w).length = w := by
      rw [List.length_take, List.length_drop]
      omega
    have hback := toBE_ofBE ((bytes.drop k).take w)
    rw [htake] at hback
    exact (standsAt_iff_take hlen).mpr hback.symm

end Sogx.Lib.Records
