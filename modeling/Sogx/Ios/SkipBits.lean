import Sogx.Ios.NALUnit

/-!
`NALUnit.cpp`: what `Skip` skips.

* `bisimulation`: what is read depends on the bits that are still to come alone.
* `skip_reads_iff`: `Skip` goes on like `GetWord` does, unless it is to end with a
  byte while some bits of another byte are left; these are read again.
-/

namespace Sogx.NALUnit

open Sogx.Lib Sogx.Lib.Bitstream

/-! ### Reading from the same bits -/

/-- The same bits are still to come. -/
def SameBits (n n' : NALUnit) : Prop := n.cursor.bits = n'.cursor.bits

/-- Readers with the same bits have the same bits further on. -/
theorem sameBits_after {n n' m m' : NALUnit} {k : Nat} (h : SameBits n n')
    (hm : m.cursor = n.cursor.after k) (hm' : m'.cursor = n'.cursor.after k) : SameBits m m' := by
  rw [SameBits, hm, hm', Cursor.after, Cursor.after, h]

theorem sameBits_GetBit {n n' : NALUnit} (h : SameBits n n') :
    n.GetBit.1 = n'.GetBit.1 ∧ SameBits n.GetBit.2 n'.GetBit.2 := by
  obtain ⟨hbit, hafter⟩ := GetBit_cursor n
  obtain ⟨hbit', hafter'⟩ := GetBit_cursor n'
  exact ⟨by rw [hbit, hbit', h], sameBits_after h hafter hafter'⟩

theorem sameBits_GetWord {n n' : NALUnit} (h : SameBits n n') (k : Nat) :
    (n.GetWord k).1 = (n'.GetWord k).1 ∧ SameBits (n.GetWord k).2 (n'.GetWord k).2 := by
  obtain ⟨hword, hafter⟩ := GetWord_cursor k n
  obtain ⟨hword', hafter'⟩ := GetWord_cursor k n'
  exact ⟨by rw [hword, hword', h], sameBits_after h hafter hafter'⟩

theorem agree_countZeros {n n' : NALUnit} (h : SameBits n n') (fuel cZeros : Nat) :
    Program.Agree SameBits (countZeros fuel cZeros n) (countZeros fuel cZeros n') := by
  induction fuel generalizing cZeros n n' with
  | zero => exact .error _
  | succ fuel ih =>
    obtain ⟨hbit, hnext⟩ := sameBits_GetBit h
    rw [countZeros, countZeros, hbit]
    split
    · exact .ok cZeros hnext
    · exact ih hnext (cZeros + 1)

theorem agree_GetUE {n n' : NALUnit} (h : SameBits n n') (fuel : Nat) :
    Program.Agree SameBits (n.GetUE fuel) (n'.GetUE fuel) := by
  have hzeros := agree_countZeros h fuel 0
  unfold GetUE
  generalize countZeros fuel 0 n = x at hzeros ⊢
  generalize countZeros fuel 0 n' = y at hzeros ⊢
  cases hzeros with
  | error e => exact .error e
  | @ok cZeros m m' hnext =>
    simp only [bind, Except.bind]
    split
    · exact .error _
    · obtain ⟨hword, hrest⟩ := sameBits_GetWord hnext cZeros
      simp only [hword]
      exact .ok _ hrest

theorem agree_GetSE {n n' : NALUnit} (h : SameBits n n') (fuel : Nat) :
    Program.Agree SameBits (n.GetSE fuel) (n'.GetSE fuel) := by
  have hue := agree_GetUE h fuel
  unfold GetSE
  generalize n.GetUE fuel = x at hue ⊢
  generalize n'.GetUE fuel = y at hue ⊢
  cases hue with
  | error e => exact .error e
  | ok u hnext => exact .ok _ hnext

/-- What is read depends on the bits that are still to come alone. -/
theorem bisimulation : Program.Bisimulation reader SameBits where
  bit := fun _ _ => sameBits_GetBit
  word := fun k _ _ h => sameBits_GetWord h k
  ue := fun fuel _ _ h => agree_GetUE h fuel
  se := fun fuel _ _ h => agree_GetSE h fuel

/-- No program of reads tells the two readers apart. -/
def ReadsAlike (n n' : NALUnit) : Prop :=
  ∀ (α : Type) (p : Program α), p.SkipFree → ∀ fuel,
    (p.run reader fuel n).map Prod.fst = (p.run reader fuel n').map Prod.fst

/-- Readers read alike if and only if they have the same bits. -/
theorem readsAlike_iff {n n' : NALUnit} : ReadsAlike n n' ↔ SameBits n n' := by
  constructor
  · intro h
    refine Stream'.take_theorem _ _ ?_
    intro k
    obtain ⟨m, hrun⟩ := Program.run_of_eval follows (Program.eval_getBits k n.cursor)
    obtain ⟨m', hrun'⟩ := Program.run_of_eval follows (Program.eval_getBits k n'.cursor)
    have hsame := h _ _ (Program.skipFree_getBits k) 32
    rw [hrun, hrun'] at hsame
    exact Except.ok.inj hsame
  · intro h α p hp fuel
    exact (bisimulation.run hp h fuel).values

/-! ### Skipping and discarding -/

theorem drop_zeros (k : Nat) : zeros.drop k = zeros := Stream'.drop_const k false

/-- A stream that begins with some bits and then comes again, and has zeros in the
end, is nothing but zeros. -/
theorem append_eq_self {l : List Bool} {s : Bits} {m : Nat} (hne : l ≠ []) (hend : s.drop m = zeros)
    (h : l ++ₛ s = s) : true ∉ l ∧ s = zeros := by
  have honce : s.drop l.length = s := by
    rw [← h, drop_append_of_length s rfl, h]
  have hoften : ∀ j, s.drop (j * l.length) = s := by
    intro j
    induction j with
    | zero =>
      rw [Nat.zero_mul]
      rfl
    | succ j ih => rw [Nat.succ_mul, ← Stream'.drop_drop, ih, honce]
  have hpos := List.length_pos_iff.mpr hne
  have hfar : m + (m * l.length - m) = m * l.length :=
    Nat.add_sub_cancel' (Nat.le_mul_of_pos_right m hpos)
  have hzeros : s = zeros := by
    rw [← hoften m, ← hfar, ← Stream'.drop_drop, hend, drop_zeros]
  refine ⟨?_, hzeros⟩
  rw [hzeros] at h
  have hl : zeros.take l.length = l := by
    rw [← h, take_append_of_length zeros rfl]
  rw [← hl]
  exact true_not_mem_zeros _

theorem append_zeros {l : List Bool} (h : true ∉ l) : l ++ₛ zeros = zeros := by
  have hl : l = List.replicate l.length false := by
    refine List.eq_replicate_of_mem ?_
    intro b hb
    cases b with
    | false => rfl
    | true => exact absurd hb h
  rw [hl, replicate_append_zeros]

/-- Behind the end there are zeros. -/
theorem bits_end (n : NALUnit) : ∃ m, n.cursor.bits.drop m = zeros := by
  refine ⟨(wordBits n.m_nBits n.m_byte.toNat ++ bitsOf n.rest).length, ?_⟩
  have hbits : n.cursor.bits =
      (wordBits n.m_nBits n.m_byte.toNat ++ bitsOf n.rest) ++ₛ zeros :=
    (Stream'.append_append_stream _ _ _).symm
  rw [hbits, drop_append_of_length zeros rfl]

/-- What is left of the byte begun, and what comes behind the bits to skip, is zero. -/
def OnlyZeros (n : NALUnit) (nBits : Nat) : Prop :=
  true ∉ n.cursor.bits.take n.m_nBits ∧ n.cursor.bits.drop nBits = zeros

/-- Skipping leaves the bits that reading leaves in these cases only. -/
theorem sameBits_Skip_iff (n : NALUnit) (nBits : Nat) :
    SameBits (n.Skip nBits) (n.GetWord nBits).2 ↔
      nBits < n.m_nBits ∨ n.m_nBits = 0 ∨ (nBits - n.m_nBits) % 8 ≠ 0 ∨ n.OnlyZeros nBits := by
  have hleft : n.cursor.left = n.m_nBits := rfl
  unfold SameBits
  rw [Skip_cursor, (GetWord_cursor nBits n).2, Cursor.after, skip, hleft]
  by_cases hlt : nBits < n.m_nBits
  · rw [if_pos hlt]
    exact ⟨fun _ => .inl hlt, fun _ => rfl⟩
  · rw [if_neg hlt]
    by_cases hmod : (nBits - n.m_nBits) % 8 = 0
    · rw [if_pos hmod]
      dsimp only
      constructor
      · intro h
        by_cases hnone : n.m_nBits = 0
        · exact .inr (.inl hnone)
        · -- the bits left would have to come again and again
          obtain ⟨m, hend⟩ := bits_end n
          have hne : n.cursor.bits.take n.m_nBits ≠ [] := by
            intro hnil
            have hlength := congrArg List.length hnil
            rw [Stream'.length_take] at hlength
            exact hnone hlength
          have hbehind : (n.cursor.bits.drop nBits).drop m = zeros := by
            rw [Stream'.drop_drop, Nat.add_comm, ← Stream'.drop_drop, hend, drop_zeros]
          exact .inr (.inr (.inr (append_eq_self hne hbehind h)))
      · rintro (hlt' | hnone | hmod' | ⟨hbits, hzeros⟩)
        · exact absurd hlt' hlt
        · rw [hnone]
          rfl
        · exact absurd hmod hmod'
        · rw [hzeros, append_zeros hbits]
    · rw [if_neg hmod]
      exact ⟨fun _ => .inr (.inr (.inl hmod)), fun _ => rfl⟩

/-- Whatever is read behind it, `Skip` has done what `GetWord` does, if and only if
it does not come to the end of a byte from within another. -/
theorem skip_reads_iff (n : NALUnit) (nBits : Nat) :
    ReadsAlike (n.Skip nBits) (n.GetWord nBits).2 ↔
      nBits < n.m_nBits ∨ n.m_nBits = 0 ∨ (nBits - n.m_nBits) % 8 ≠ 0 ∨ n.OnlyZeros nBits := by
  rw [readsAlike_iff, sameBits_Skip_iff]

/-- Half a byte is read, and the other half is to be skipped. -/
theorem half_byte_not_skipped :
    ((Program.getBit.run reader 0 ((((ofData [0x0f, 0]).GetWord 4).2).Skip 4)).map Prod.fst =
        .ok true) ∧
      ((Program.getBit.run reader 0 ((((ofData [0x0f, 0]).GetWord 4).2).GetWord 4).2).map Prod.fst =
        .ok false) ∧
      ¬ ReadsAlike ((((ofData [0x0f, 0]).GetWord 4).2).Skip 4)
        ((((ofData [0x0f, 0]).GetWord 4).2).GetWord 4).2 := by
  have hskip : (Program.getBit.run reader 0 ((((ofData [0x0f, 0]).GetWord 4).2).Skip 4)).map
      Prod.fst = .ok true := rfl
  have hread : (Program.getBit.run reader 0 ((((ofData [0x0f, 0]).GetWord 4).2).GetWord 4).2).map
      Prod.fst = .ok false := rfl
  refine ⟨hskip, hread, ?_⟩
  intro h
  have hsame := h Bool Program.getBit (fun _ => trivial) 0
  rw [hskip, hread] at hsame
  cases hsame

end Sogx.NALUnit
