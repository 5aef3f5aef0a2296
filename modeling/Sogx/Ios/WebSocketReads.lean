import Sogx.Ios.WebSocketRuns

/-!
`WebSocket.m`: the loop of a read ends.

Whatever the bytes are, a turn of the loop that is not the last one takes a whole
fragment out of them. This needs the bytes at hand to be less than 2 GiB: an `int`
holds the end of a fragment only up to there.

* `headerEnd`: where the header of some bytes ends.
* `Tidy`: at most the last fragment that is kept is not complete, and it waits for
  more bytes.
* `read_ends`: in every run of such reads each of them ends.
-/

namespace Sogx

open Sogx.Lib

namespace WebSocketFragment

/-- The length of a header with this second byte. -/
def headerSize (second : Byte) : Nat :=
  (if (second &&& 0x7F).toNat = 126 then 4 else if (second &&& 0x7F).toNat = 127 then 10 else 2) +
    if second &&& 0x80 != 0 then 4 else 0

theorem two_le_headerSize (second : Byte) : 2 ≤ headerSize second := by
  refine Nat.le_add_right_of_le ?_
  split
  · omega
  · split <;> omega

/-- The length of the header that the bytes begin with, if all of it is there. -/
def headerEnd : List Byte → Option Nat
  | _ :: second :: rest => if headerSize second ≤ rest.length + 2 then some (headerSize second) else none
  | _ => none

theorem headerEnd_eq_some {buffer : List Byte} {n : Nat} (h : headerEnd buffer = some n) :
    ∃ first second rest, buffer = first :: second :: rest ∧ n = headerSize second ∧ n ≤ buffer.length := by
  match buffer with
  | first :: second :: rest =>
    rw [headerEnd] at h
    split at h
    · obtain rfl := Option.some.inj h
      exact ⟨first, second, rest, rfl, rfl, ‹_›⟩
    · cases h
  | [] => cases h
  | [first] => cases h

/-- The header needs no bytes behind it. -/
theorem headerEnd_of_prefix {x z : List Byte} {n : Nat} (hx : x <+: z) (h : headerEnd z = some n)
    (hn : n ≤ x.length) : headerEnd x = some n := by
  obtain ⟨first, second, rest, rfl, rfl, -⟩ := headerEnd_eq_some h
  have hsize := two_le_headerSize second
  match x with
  | [] => exact absurd (hsize.trans hn) (Nat.not_succ_le_zero 1)
  | [first] => exact absurd (hsize.trans hn) (Nat.not_succ_le_self 1)
  | first :: second :: rest =>
    obtain ⟨more, hmore⟩ := hx
    obtain ⟨rfl, rfl, rfl⟩ : _ = _ ∧ _ = _ ∧ _ = _ := by simpa using hmore
    exact if_pos hn

variable {f f' : WebSocketFragment}

/-- What parsing a header leaves as it is. -/
structure SameBytes (f f' : WebSocketFragment) : Prop where
  fragment : f'.fragment = f.fragment
  payloadData : f'.payloadData = f.payloadData

/-- Reading the mask fails for want of its bytes only, and the payload starts behind it. -/
theorem readMask_spec (buffer : List Byte) (hasMask : Bool) (index dataLength : Nat) (f : WebSocketFragment) :
    SameBytes f (readMask buffer hasMask index dataLength f).1 ∧
      if hasMask = true ∧ buffer.length < index + 4 then
        (readMask buffer hasMask index dataLength f).2 = false ∧
          (readMask buffer hasMask index dataLength f).1.payloadStart = f.payloadStart
      else (readMask buffer hasMask index dataLength f).2 = true ∧
        (readMask buffer hasMask index dataLength f).1.payloadStart = index + if hasMask = true then 4 else 0 := by
  unfold readMask
  cases hasMask with
  | false => exact ⟨⟨rfl, rfl⟩, rfl, rfl⟩
  | true =>
    by_cases hshort : buffer.length < index + 4
    · simp only [hshort, if_true, and_self]
      exact ⟨⟨rfl, rfl⟩, trivial⟩
    · simp only [hshort, if_true, if_false, and_false]
      exact ⟨⟨rfl, rfl⟩, rfl, rfl⟩

/-- Parsing finds the header where it ends. -/
theorem readHeader_spec (buffer : List Byte) (f : WebSocketFragment) :
    SameBytes f (readHeader buffer f).1 ∧ (readHeader buffer f).2 = (headerEnd buffer).isSome ∧
      (readHeader buffer f).1.payloadStart = (headerEnd buffer).getD f.payloadStart := by
  match buffer with
  | [] => exact ⟨⟨rfl, rfl⟩, rfl, rfl⟩
  | [first] => exact ⟨⟨rfl, rfl⟩, rfl, rfl⟩
  | first :: second :: rest =>
    have hmask : ∀ (index dataLength : Nat) (g : WebSocketFragment), index ≤ rest.length + 2 → SameBytes f g →
        g.payloadStart = f.payloadStart →
        headerSize second = index + (if second &&& 0x80 != 0 then 4 else 0) →
        SameBytes f (readMask (first :: second :: rest) (second &&& 0x80 != 0) index dataLength g).1 ∧
        (readMask (first :: second :: rest) (second &&& 0x80 != 0) index dataLength g).2 =
          (headerEnd (first :: second :: rest)).isSome ∧
        (readMask (first :: second :: rest) (second &&& 0x80 != 0) index dataLength g).1.payloadStart =
          (headerEnd (first :: second :: rest)).getD f.payloadStart := by
      intro index dataLength g hindex hsame hstart hsize
      obtain ⟨hbytes, hspec⟩ := readMask_spec (first :: second :: rest) (second &&& 0x80 != 0) index dataLength g
      have hlength : (first :: second :: rest).length = rest.length + 2 := rfl
      refine ⟨⟨hbytes.fragment.trans hsame.fragment, hbytes.payloadData.trans hsame.payloadData⟩, ?_⟩
      rw [headerEnd, hsize]
      rw [hlength] at hspec
      cases hbit : second &&& 0x80 != 0 with
      | false =>
        simp only [hbit, Bool.false_eq_true, false_and, if_false, Nat.add_zero] at hspec ⊢
        rw [if_pos hindex]
        exact hspec
      | true =>
        simp only [hbit, true_and, if_true] at hspec ⊢
        by_cases hshort : rest.length + 2 < index + 4
        · rw [if_pos hshort] at hspec
          rw [if_neg (Nat.not_le.mpr hshort)]
          exact ⟨hspec.1, hspec.2.trans hstart⟩
        · rw [if_neg hshort] at hspec
          rw [if_pos (Nat.not_lt.mp hshort)]
          exact hspec
    have hnone : ∀ index, rest.length + 2 < index →
        headerSize second = index + (if second &&& 0x80 != 0 then 4 else 0) →
        headerEnd (first :: second :: rest) = none := by
      intro index hindex hsize
      rw [headerEnd, hsize, if_neg (by omega)]
    rw [readHeader]
    split
    · rename_i h126
      have hsize : headerSize second = 4 + (if second &&& 0x80 != 0 then 4 else 0) := by
        rw [headerSize, if_pos h126]
      split
      · rename_i hshort
        rw [hnone 4 hshort hsize]
        exact ⟨⟨rfl, rfl⟩, rfl, rfl⟩
      · exact hmask 4 _ _ (Nat.not_lt.mp ‹_›) ⟨rfl, rfl⟩ rfl hsize
    · rename_i h126
      split
      · rename_i h127
        have hsize : headerSize second = 10 + (if second &&& 0x80 != 0 then 4 else 0) := by
          rw [headerSize, if_neg h126, if_pos h127]
        split
        · rename_i hshort
          rw [hnone 10 hshort hsize]
          exact ⟨⟨rfl, rfl⟩, rfl, rfl⟩
        · exact hmask 10 _ _ (Nat.not_lt.mp ‹_›) ⟨rfl, rfl⟩ rfl hsize
      · rename_i h127
        exact hmask 2 _ _ (Nat.le_add_left 2 _) ⟨rfl, rfl⟩ rfl (by rw [headerSize, if_neg h126, if_neg h127])

/-- A fragment that waits for more bytes: those of it do not hold the header, or not all
that it announces. -/
structure Unfinished (f : WebSocketFragment) : Prop where
  bare : f.isHeaderValid = false → headerEnd ((f.fragment.getD []).take bufferLength) = none
  more : f.isHeaderValid = true → f.hasMask = false → 0 < f.messageLength → f.messageLength < 2 ^ 31 →
    f.fragmentLength < f.messageLength

theorem unfinished_init : Unfinished .init := ⟨fun _ => rfl, fun h => absurd h (by decide)⟩

theorem messageLength_of_pos (h : 0 < f.messageLength) :
    0 < f.payloadStart ∧ 0 ≤ f.payloadLength ∧ f.messageLength = f.payloadStart + f.payloadLength.toNat := by
  unfold messageLength at h ⊢
  split at h
  · rename_i hpos
    rw [if_pos hpos]
    exact ⟨hpos.1, hpos.2, rfl⟩
  · exact absurd h (Nat.lt_irrefl 0)

/-- Where an `int` holds it the end of the fragment is its length. -/
theorem unsigned_contentEnd_of_lt (hpos : 0 < f.messageLength) (hlt : f.messageLength < 2 ^ 31) :
    unsigned f.contentEnd = f.messageLength := by
  obtain ⟨-, hnonneg, hlength⟩ := messageLength_of_pos hpos
  have hsum : (f.payloadStart : Int) + f.payloadLength = (f.messageLength : Nat) := by
    rw [hlength]
    omega
  rw [contentEnd, hsum, unsigned_int_of_lt hlt]

/-- A fragment can be parsed when it has all bytes of its message. -/
theorem canBeParsed_eq (hpos : 0 < f.messageLength) (hlt : f.messageLength < 2 ^ 31) :
    f.canBeParsed = decide (f.messageLength ≤ f.fragmentLength) := by
  have hvalid : f.isHeaderValid = true := decide_eq_true (messageLength_of_pos hpos).1
  rw [canBeParsed, if_pos ⟨hpos, hvalid⟩, unsigned_contentEnd_of_lt hpos hlt]

/-- Without its header a fragment gets nothing of its own bytes. -/
theorem parseOwnHeader_bare (h : Unfinished f) (hnot : f.isHeaderValid = false) :
    f.parseOwnHeader.fragment = f.fragment ∧ f.parseOwnHeader.isHeaderValid = false := by
  unfold parseOwnHeader
  split
  · obtain ⟨hsame, -, hstart⟩ := readHeader_spec (headerBuffer [] 0 f) f
    have hbuffer : headerBuffer [] 0 f = (f.fragment.getD []).take bufferLength := by
      rw [headerBuffer_eq (.inr rfl), List.drop_nil, List.append_nil]
    have hnone := h.bare hnot
    rw [hbuffer, hnone, Option.getD_none, ← hbuffer] at hstart
    refine ⟨hsame.fragment, ?_⟩
    rw [parseHeader, isHeaderValid, hstart]
    exact hnot
  · exact ⟨rfl, hnot⟩

/-- The header is found in the bytes of a fragment and the data behind them, and then the
fragment still waits for more. -/
theorem findHeader_spec (aData : List Byte) {aOffset : Nat} (h : Unfinished f)
    (hoffset : f.fragment = none ∨ aOffset = 0) :
    (f.findHeader aData aOffset).1.fragment = f.fragment ∧
      ((f.findHeader aData aOffset).2 = false → (f.findHeader aData aOffset).1.isHeaderValid = false ∧
        headerEnd ((f.fragment.getD [] ++ aData.drop aOffset).take bufferLength) = none) ∧
      ((f.findHeader aData aOffset).2 = true → (f.findHeader aData aOffset).1.isHeaderValid = true ∧
        Unfinished (f.findHeader aData aOffset).1) := by
  cases hvalid : f.isHeaderValid with
  | true =>
    have hfind : f.findHeader aData aOffset = (f, true) := by rw [findHeader, if_pos hvalid]
    rw [hfind]
    exact ⟨rfl, fun h => absurd h (by simp), fun _ => ⟨hvalid, h⟩⟩
  | false =>
    obtain ⟨hfragment, hown⟩ := parseOwnHeader_bare h hvalid
    have hfind : f.findHeader aData aOffset = parseHeader aData aOffset f.parseOwnHeader := by
      simp [findHeader, hvalid, hown]
    obtain ⟨hsame, hfound, hstart⟩ := readHeader_spec
      ((f.fragment.getD [] ++ aData.drop aOffset).take bufferLength) f.parseOwnHeader
    rw [hfind, parseHeader, headerBuffer_eq (hfragment ▸ hoffset), hfragment]
    refine ⟨hsame.fragment.trans hfragment, ?_, ?_⟩
    · intro hnot
      rw [hnot] at hfound
      have hnone : headerEnd ((f.fragment.getD [] ++ aData.drop aOffset).take bufferLength) = none :=
        Option.isSome_eq_false_iff.mp hfound.symm |> Option.isNone_iff_eq_none.mp
      rw [hnone, Option.getD_none] at hstart
      exact ⟨by rw [isHeaderValid, hstart]; exact hown, hnone⟩
    · intro hyes
      rw [hyes] at hfound
      obtain ⟨n, hn⟩ := Option.isSome_iff_exists.mp hfound.symm
      obtain ⟨first, second, rest, -, hsize, hle⟩ := headerEnd_eq_some hn
      have htwo := two_le_headerSize second
      rw [hn, Option.getD_some] at hstart
      rw [List.length_take] at hle
      -- more bytes make the header than were there
      have hmore : (f.fragment.getD []).length < n := by
        by_contra hnot
        have hprefixed : (f.fragment.getD []).take bufferLength <+:
            (f.fragment.getD [] ++ aData.drop aOffset).take bufferLength :=
          (List.prefix_append _ _).take bufferLength
        have hown' := headerEnd_of_prefix hprefixed hn (by rw [List.length_take]; omega)
        rw [h.bare hvalid] at hown'
        cases hown'
      have hheader : (readHeader ((f.fragment.getD [] ++ aData.drop aOffset).take bufferLength)
          f.parseOwnHeader).1.isHeaderValid = true := by
        rw [isHeaderValid, hstart]
        exact decide_eq_true (by omega)
      refine ⟨hheader, fun hinvalid => absurd hheader (by simp [hinvalid]), ?_⟩
      · intro _ _ hpos _
        obtain ⟨-, -, hlength⟩ := messageLength_of_pos hpos
        rw [fragmentLength, hsame.fragment, hfragment, hlength, hstart]
        omega

theorem length_of_subdata {data d : List Byte} {location length : Nat}
    (h : subdataWithRange data location length = some d) : d.length = length := by
  unfold subdataWithRange at h
  split at h
  · obtain rfl := Option.some.inj h
    rw [List.length_take, List.length_drop]
    omega
  · cases h

/-- A fragment whose bytes are all there is valid when its content is parsed. -/
theorem isValid_of_parse (hparse : f.parseOwnContent = some f') (hmask : f.hasMask = false)
    (hpos : 0 < f.messageLength) (hlt : f.messageLength < 2 ^ 31) (hall : f.messageLength ≤ f.fragmentLength) :
    f'.isValid = true := by
  have hend := unsigned_contentEnd_of_lt hpos hlt
  unfold parseOwnContent at hparse
  cases hfragment : f.fragment with
  | none =>
    rw [fragmentLength, hfragment] at hall
    exact absurd (hpos.trans_le hall) (Nat.lt_irrefl 0)
  | some fragment =>
    have hle : unsigned f.contentEnd ≤ fragment.length := by
      rw [fragmentLength, hfragment] at hall
      rw [hend]
      exact hall
    rw [hfragment] at hparse
    dsimp only at hparse
    rw [parseContent, if_pos hle, if_neg (by simp [hmask])] at hparse
    obtain ⟨x, hx, rfl⟩ := Option.map_eq_some_iff.mp hparse
    obtain ⟨payloadData, hdata, rfl⟩ := Option.map_eq_some_iff.mp hx
    have hlength : payloadData.length = unsigned f.payloadLength := length_of_subdata hdata
    have hsame : messageLength { f with payloadData := some payloadData, fragment := none } = f.messageLength := rfl
    rw [isValid, hsame, if_pos hpos]
    exact beq_iff_eq.mpr hlength

/-- Parsing does not change the length of the message. -/
theorem messageLength_of_parse (hparse : f.parseOwnContent = some f') :
    f'.messageLength = f.messageLength ∧ f'.isHeaderValid = f.isHeaderValid := by
  unfold parseOwnContent at hparse
  split at hparse
  · unfold parseContent at hparse
    split at hparse
    · obtain ⟨x, hx, rfl⟩ := Option.map_eq_some_iff.mp hparse
      obtain ⟨payloadData, -, rfl⟩ := Option.map_eq_some_iff.mp hx
      exact ⟨rfl, rfl⟩
    · obtain rfl := Option.some.inj hparse
      exact ⟨rfl, rfl⟩
  · obtain rfl := Option.some.inj hparse
    exact ⟨rfl, rfl⟩

/-- A fragment with a header that has too few bytes is not finished. -/
theorem unfinished_of_header (hheader : f.isHeaderValid = true)
    (hmore : f.hasMask = false → 0 < f.messageLength → f.messageLength < 2 ^ 31 →
      f.fragmentLength < f.messageLength) : Unfinished f :=
  ⟨fun hinvalid => absurd hheader (by simp [hinvalid]), fun _ => hmore⟩

end WebSocketFragment

namespace WebSocket

open WebSocketFragment

section Reads

variable (arc4random : Nat → BitVec 32) {s s' : WebSocket} {f : WebSocketFragment}

/-- Of the fragments that are kept only the last may not be complete. -/
structure Tidy (s : WebSocket) : Prop where
  valid : ∀ f ∈ s.pendingFragments.dropLast, f.isValid = true
  last : ∀ f ∈ s.pendingFragments.getLast?, f.isValid = false → Unfinished f

/-- The fragment that is taken up again is not finished, and its bytes are counted. -/
theorem currentFragment_tidy (h : Tidy s) : (∀ f ∈ s.currentFragment.1, f.isValid = true) ∧
    Unfinished s.currentFragment.2.1 ∧ s.currentFragment.2.2 = s.currentFragment.2.1.fragmentLength := by
  unfold currentFragment
  split
  · rename_i hnone
    rw [List.getLast?_eq_none_iff.mp hnone]
    exact ⟨fun f hf => absurd hf List.not_mem_nil, unfinished_init, rfl⟩
  · rename_i f hlast
    cases hvalid : f.isValid with
    | true =>
      rw [if_pos rfl]
      refine ⟨?_, unfinished_init, rfl⟩
      obtain ⟨front, hfront⟩ := List.getLast?_eq_some_iff.mp hlast
      have hfirst := h.valid
      rw [hfront, List.dropLast_concat] at hfirst
      intro g hg
      rw [hfront] at hg
      rcases List.mem_append.mp hg with hmem | hmem
      · exact hfirst g hmem
      · exact List.mem_singleton.mp hmem ▸ hvalid
    | false =>
      rw [if_neg (by simp)]
      exact ⟨h.valid, h.last f hlast hvalid, rfl⟩

/-- A fragment put behind valid ones leaves the socket tidy. -/
theorem tidy_append {pending : List WebSocketFragment} (hpending : ∀ f ∈ pending, f.isValid = true)
    (hs : s.pendingFragments = pending ++ [f]) (hf : f.isValid = false → Unfinished f) : Tidy s := by
  refine ⟨?_, ?_⟩
  · rw [hs, List.dropLast_concat]
    exact hpending
  · rw [hs, List.getLast?_concat]
    rintro g hg
    obtain rfl := Option.some.inj hg
    exact hf

theorem tidy_of_valid (h : ∀ f ∈ s.pendingFragments, f.isValid = true) : Tidy s := by
  refine ⟨fun f hf => h f (List.mem_of_mem_dropLast hf), ?_⟩
  intro f hf hnot
  rw [h f (List.mem_of_getLast? hf)] at hnot
  cases hnot

theorem setContinuation_pending (g : WebSocketFragment) (s : WebSocket) :
    (s.setContinuation g).pendingFragments = s.pendingFragments := by
  unfold setContinuation
  split
  · split
    · rfl
    · split <;> rfl
  · rfl

/-- Handling what is complete only takes fragments away. -/
theorem handleCompleteFragments_pending (s : WebSocket) :
    ∀ g ∈ (s.handleCompleteFragments arc4random).pendingFragments, g ∈ s.pendingFragments := by
  unfold handleCompleteFragments
  split
  · exact fun _ hg => hg
  · dsimp only
    split
    · exact fun g hg => absurd hg List.not_mem_nil
    · split
      · exact fun g hg => absurd hg List.not_mem_nil
      · exact fun g hg => absurd hg List.not_mem_nil

/-- Handling a fragment only takes fragments away. -/
theorem handleCompleteFragment_pending (f : WebSocketFragment) (s : WebSocket) :
    ∀ g ∈ (s.handleCompleteFragment arc4random f).pendingFragments, g ∈ s.pendingFragments := by
  unfold handleCompleteFragment
  extract_lets s₁ payloadData
  have h₁ : ∀ g ∈ s₁.pendingFragments, g ∈ s.pendingFragments := by
    simp only [s₁]
    split
    · exact fun g hg => List.mem_of_mem_dropLast hg
    · exact fun g hg => hg
  split
  · split
    · exact fun g hg => h₁ g (handleCompleteFragments_pending arc4random s₁ g hg)
    · exact h₁
  · split
    · split <;> exact h₁
    · split
      · split <;> exact h₁
      · split
        · exact h₁
        · split
          · split <;> exact h₁
          · exact h₁

/-- What becomes of a fragment that has taken in its data. -/
theorem handleFragment_tidy {pending : List WebSocketFragment} {offset offset' : Option Nat}
    (hstep : s.handleFragment arc4random pending f offset = some (s', offset'))
    (hpending : ∀ g ∈ pending, g.isValid = true) (hheader : f.isHeaderValid = true) :
    Tidy s' ∧ ∀ next ∈ offset', next ∈ offset ∧
      (0 < f.messageLength → f.messageLength < 2 ^ 31 → f.messageLength ≤ f.fragmentLength →
        f.hasMask = false ∧ ∀ g ∈ s'.pendingFragments, g.isValid = true) := by
  have hall : f.canBeParsed = true → 0 < f.messageLength → f.messageLength < 2 ^ 31 →
      f.messageLength ≤ f.fragmentLength := by
    intro hparsed hpos hlt
    rw [canBeParsed_eq hpos hlt] at hparsed
    exact of_decide_eq_true hparsed
  unfold handleFragment at hstep
  dsimp only at hstep
  split at hstep
  · rename_i hparsed
    split at hstep
    · -- masked: the fragment stays where it is
      rename_i hmask
      obtain ⟨rfl, rfl⟩ := Prod.mk.inj (Option.some.inj hstep)
      refine ⟨tidy_append hpending rfl fun _ => unfinished_of_header hheader fun hnot => ?_, ?_⟩
      · exact absurd hmask (by simp [hnot])
      · exact fun next hnext => absurd hnext (by simp)
    · rename_i hmask
      have hmask : f.hasMask = false := by simpa using hmask
      obtain ⟨f', hparse, hresult⟩ := Option.map_eq_some_iff.mp hstep
      obtain ⟨rfl, rfl⟩ := Prod.mk.inj hresult
      obtain ⟨hlength, hheader'⟩ := messageLength_of_parse hparse
      cases hvalid : f'.isValid with
      | true =>
        have hpending' : ∀ g ∈ pending ++ [f'], g.isValid = true := by
          intro g hg
          rcases List.mem_append.mp hg with hmem | hmem
          · exact hpending g hmem
          · exact List.mem_singleton.mp hmem ▸ hvalid
        have hkept : ∀ g ∈ (setContinuation f' (if f'.isValid = true ∧ f'.isFinal = true then
            handleCompleteFragment arc4random f' { s with pendingFragments := pending ++ [f'] }
            else { s with pendingFragments := pending ++ [f'] })).pendingFragments, g.isValid = true := by
          rw [setContinuation_pending]
          split
          · exact fun g hg => hpending' g (handleCompleteFragment_pending arc4random f' _ g hg)
          · exact hpending'
        rw [hvalid] at hkept
        exact ⟨tidy_of_valid hkept, fun next hnext => ⟨hnext, fun _ _ _ => ⟨hmask, hkept⟩⟩⟩
      | false =>
        have hnot : ¬ (0 < f.messageLength ∧ f.messageLength < 2 ^ 31) := by
          rintro ⟨hpos, hlt⟩
          rw [isValid_of_parse hparse hmask hpos hlt (hall hparsed hpos hlt)] at hvalid
          cases hvalid
        refine ⟨tidy_append hpending (setContinuation_pending _ _) fun _ =>
          unfinished_of_header (hheader'.trans hheader) fun _ hpos hlt => ?_, ?_⟩
        · rw [hlength] at hpos hlt
          exact absurd ⟨hpos, hlt⟩ hnot
        · exact fun next hnext => ⟨hnext, fun hpos hlt => absurd ⟨hpos, hlt⟩ hnot⟩
  · rename_i hparsed
    obtain ⟨rfl, rfl⟩ := Prod.mk.inj (Option.some.inj hstep)
    have hmore : 0 < f.messageLength → f.messageLength < 2 ^ 31 → f.fragmentLength < f.messageLength := by
      intro hpos hlt
      by_contra hnot
      rw [canBeParsed_eq hpos hlt] at hparsed
      exact hparsed (decide_eq_true (Nat.not_lt.mp hnot))
    refine ⟨tidy_append hpending (setContinuation_pending _ _) fun _ =>
      unfinished_of_header hheader fun _ => hmore, ?_⟩
    exact fun next hnext => ⟨hnext, fun hpos hlt hle => absurd (hmore hpos hlt) (Nat.not_lt.mpr hle)⟩

/-- A turn of the loop: it is the last one, or it has taken a whole fragment out of the
data. -/
theorem handleMessageData_tidy {aData : List Byte} {aOffset : Nat} {offset : Option Nat} (h : Tidy s)
    (hoffset : s.currentFragment.2.1.fragment = none ∨ aOffset = 0)
    (hsmall : s.currentFragment.2.2 + (aData.length - aOffset) < 2 ^ 31) (hlength : aData.length < 2 ^ 31)
    (hstep : s.handleMessageData arc4random aData aOffset = some (s', offset)) :
    Tidy s' ∧ ∀ next ∈ offset, aOffset < next ∧ next ≤ aData.length ∧
      ∀ f ∈ s'.pendingFragments, f.isValid = true := by
  obtain ⟨hvalid, hcurrent, hexisting⟩ := currentFragment_tidy h
  obtain ⟨hfragment, hnot, hyes⟩ := findHeader_spec aData hcurrent hoffset
  unfold handleMessageData at hstep
  dsimp only at hstep
  generalize (s.currentFragment.2.1.findHeader aData aOffset) = found at hfragment hnot hyes hstep
  obtain ⟨f, found⟩ := found
  dsimp only at hfragment hnot hyes hstep
  have hcount : f.fragmentLength = s.currentFragment.2.2 := by
    rw [hexisting, fragmentLength, hfragment]
    rfl
  have hbytes : ∀ data, (f.append data).fragmentLength = s.currentFragment.2.2 + data.length := by
    intro data
    rw [← hcount]
    exact List.length_append
  split at hstep
  · rename_i hfound
    obtain ⟨rfl, rfl⟩ := Prod.mk.inj (Option.some.inj hstep)
    obtain ⟨hinvalid, hnone⟩ := hnot hfound
    refine ⟨tidy_append hvalid rfl fun _ => ⟨fun _ => ?_, fun hheader => ?_⟩, fun next hnext => absurd hnext (by simp)⟩
    · rw [← hfragment] at hnone
      exact hnone
    · have hheader : f.isHeaderValid = true := hheader
      rw [hinvalid] at hheader
      cases hheader
  · rename_i hfound
    obtain ⟨hheader, hunfinished⟩ := hyes (by simpa using hfound)
    split at hstep
    · cases hstep
    · rename_i hfault
      obtain ⟨htidy, hnext⟩ := handleFragment_tidy arc4random hstep hvalid hheader
      refine ⟨htidy, ?_⟩
      intro next hmem
      obtain ⟨hoffset', hrest⟩ := hnext next hmem
      -- the loop goes on, so the fragment ends inside the data
      have hends : 0 < f.messageLength ∧ f.messageLength < aData.length - aOffset + s.currentFragment.2.2 := by
        have hmore : 0 < f.messageLength ∧
            0 < (if f.messageLength < aData.length - aOffset + s.currentFragment.2.2 then
              aData.length - aOffset - (f.messageLength - s.currentFragment.2.2) else 0) := by
          by_contra hlast
          rw [if_neg hlast] at hoffset'
          cases hoffset'
        refine ⟨hmore.1, ?_⟩
        by_contra hlonger
        rw [if_neg hlonger] at hmore
        exact Nat.lt_irrefl 0 hmore.2
      obtain ⟨hpos, hinside⟩ := hends
      have hlt : f.messageLength < 2 ^ 31 := by omega
      rw [if_pos hinside] at hoffset' hrest
      have htaken : aData.length - aOffset - (aData.length - aOffset -
          (f.messageLength - s.currentFragment.2.2)) = f.messageLength - s.currentFragment.2.2 := by omega
      rw [htaken] at hoffset' hrest
      have hwhole : (f.append ((aData.drop aOffset).take (f.messageLength - s.currentFragment.2.2))).fragmentLength =
          f.messageLength := by
        have hmin : min (f.messageLength - s.currentFragment.2.2) (aData.length - aOffset) =
            f.messageLength - s.currentFragment.2.2 :=
          Nat.min_eq_left (Nat.sub_le_of_le_add hinside.le)
        rw [hbytes, List.length_take, List.length_drop, hmin]
        exact Nat.add_sub_cancel' (Nat.not_lt.mp hfault)
      obtain ⟨hmask, hkept⟩ := hrest hpos hlt hwhole.ge
      have hprogress := hunfinished.more hheader hmask hpos hlt
      rw [hcount] at hprogress
      split at hoffset'
      · rw [nextOffset_of_lt (by omega)] at hoffset'
        obtain rfl := Option.some.inj hoffset'
        exact ⟨by omega, by omega, hkept⟩
      · cases hoffset'

theorem currentFragment_of_valid (h : ∀ f ∈ s.pendingFragments, f.isValid = true) :
    s.currentFragment.2 = (.init, 0) := by
  unfold currentFragment
  split
  · rfl
  · rename_i f hlast
    rw [if_pos (h f (List.mem_of_getLast? hlast))]

/-- The loop ends, and keeps the fragments tidy. -/
theorem readLoop_ends {aData : List Byte} {fuel aOffset : Nat} (h : Tidy s)
    (hoffset : s.currentFragment.2.1.fragment = none ∨ aOffset = 0)
    (hsmall : s.currentFragment.2.2 + (aData.length - aOffset) < 2 ^ 31) (hlength : aData.length < 2 ^ 31)
    (hle : aOffset ≤ aData.length) (hfuel : aData.length < aOffset + fuel) :
    s.readLoop arc4random aData fuel aOffset ≠ .error .running ∧
      ∀ s', s.readLoop arc4random aData fuel aOffset = .ok s' → Tidy s' := by
  induction fuel generalizing s aOffset with
  | zero => exact absurd hle (Nat.not_le.mpr hfuel)
  | succ fuel ih =>
    rw [readLoop]
    cases hstep : s.handleMessageData arc4random aData aOffset with
    | none => exact ⟨by simp, by simp⟩
    | some result =>
      obtain ⟨t, offset⟩ := result
      obtain ⟨htidy, hnext⟩ := handleMessageData_tidy arc4random h hoffset hsmall hlength hstep
      cases offset with
      | none => exact ⟨by simp, fun s' hs' => Except.ok.inj hs' ▸ htidy⟩
      | some next =>
        obtain ⟨hprogress, hle', hvalid⟩ := hnext next rfl
        have hcurrent := currentFragment_of_valid hvalid
        refine ih htidy (.inl ?_) ?_ hle' (by omega)
        · rw [hcurrent]
          rfl
        · rw [hcurrent]
          simp only
          omega

end Reads

/-! ### Runs -/

section Runs

variable {getSHA1 : List Byte → List Byte} {arc4random : Nat → BitVec 32} {s s' : WebSocket}

/-- The bytes of a read and those that wait for them are less than 2 GiB. -/
def Small (s : WebSocket) : Label → Prop
  | .didReadData aData => s.currentFragment.2.2 + aData.length < 2 ^ 31
  | _ => True

/-- A small read ends, and leaves the socket tidy. -/
theorem read_tidy {aData : List Byte} (h : Tidy s) (hsmall : Small s (.didReadData aData)) :
    s.didReadData arc4random aData ≠ .error .running ∧
      ∀ s', s.didReadData arc4random aData = .ok s' → Tidy s' :=
  readLoop_ends arc4random h (.inr rfl) hsmall (Nat.lt_of_le_of_lt (Nat.le_add_left _ _) hsmall) (Nat.zero_le _)
    (by omega)

/-- A step keeps the socket tidy if its read is small. -/
theorem step_tidy {l : Label} (h : Tidy s) (hsmall : Small s l) (hstep : step getSHA1 arc4random l s = some s') :
    Tidy s' := by
  have hsender : ∀ sender, some { s with sender } = some s' → Tidy s' := by
    intro sender hsome
    obtain rfl := Option.some.inj hsome
    exact ⟨h.valid, h.last⟩
  cases l with
  | didReadData aData =>
    rw [step] at hstep
    cases hread : s.didReadData arc4random aData with
    | error e =>
      rw [hread] at hstep
      cases hstep
    | ok t =>
      rw [hread] at hstep
      obtain rfl := Option.some.inj hstep
      exact (read_tidy h hsmall).2 t hread
  | openSocket connected => exact hsender _ hstep
  | sendHandshake initialString => exact hsender _ hstep
  | didReadHandshake response connected => exact hsender _ hstep
  | socketDidDisconnect aError => exact hsender _ hstep
  | checkClose => exact hsender _ hstep
  | repeatPing => exact hsender _ hstep
  | send send => exact hsender _ hstep
  | close aStatusCode aMessage => exact hsender _ hstep

/-- In every run whose reads are small the loop of the next read ends, whatever its bytes
are: with a state, or with an exception. -/
theorem read_ends (getSHA1 : List Byte → List Byte) (config : WebSocketConnectConfig) (labels : List Label)
    (hrun : Run (step getSHA1 arc4random) Small (initWithConfig config) labels s) (aData : List Byte)
    (hsmall : s.currentFragment.2.2 + aData.length < 2 ^ 31) :
    s.didReadData arc4random aData ≠ .error .running := by
  have hstart : Tidy (initWithConfig config) := tidy_of_valid fun f hf => absurd hf List.not_mem_nil
  have htidy := hrun.invariant (fun _ _ _ h hok hstep => step_tidy h hok hstep) hstart
  exact (read_tidy htidy hsmall).1

/-- A frame of two characters comes in two reads, and the second one also brings the first
byte of a ping. -/
theorem read_ends_of_rest : ∃ s, step WebSocketSender.someHash (fun _ => 1) (.didReadData [0x81, 2, 0x61])
      (initWithConfig WebSocketSender.ready.config) = some s ∧ s.currentFragment.2.2 = 3 ∧
    s.didReadData (fun _ => 1) [0x62, 0x89] ≠ .error .running := by
  obtain ⟨s, hstep⟩ : ∃ s, step WebSocketSender.someHash (fun _ => 1) (.didReadData [0x81, 2, 0x61])
      (initWithConfig WebSocketSender.ready.config) = some s := ⟨_, rfl⟩
  have hwaiting : s.currentFragment.2.2 = 3 := by
    cases hstep
    rfl
  have hsmall : (initWithConfig WebSocketSender.ready.config).currentFragment.2.2 +
      ([0x81, 2, 0x61] : List Byte).length < 2 ^ 31 := by decide
  have hrun : Run (step WebSocketSender.someHash fun _ => 1) Small (initWithConfig WebSocketSender.ready.config)
      [.didReadData [0x81, 2, 0x61]] s := .cons hsmall hstep (.nil s)
  refine ⟨s, hstep, hwaiting, read_ends WebSocketSender.someHash WebSocketSender.ready.config
    [.didReadData [0x81, 2, 0x61]] hrun [0x62, 0x89] ?_⟩
  rw [hwaiting]
  decide

end Runs

end WebSocket

end Sogx
