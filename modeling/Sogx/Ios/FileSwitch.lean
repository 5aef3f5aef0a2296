import Sogx.Ios.AVEncoder
import Sogx.Lib.Machine

/-!
The runs of the encoder in `AVEncoder.mm`: files that grow, handlers that read
them, and switches from one file to the next, in any order.

* `run_extracts`: over any run in which a file is only left after its `mdat` was
  found, the units handed over are those of the files in order, and none of a
  file that was left is missing.
* `run_extends`: nothing that was handed over is taken back.
* `handlers_return`: in such a run the handlers come back.
* `swapFiles_before_mdat`: a file that is left earlier loses its units.
-/

namespace Sogx.AVEncoder

open Sogx.Lib Sogx.Lib.Records Sogx.MovieFile

/-- What may happen next. The block behind the cancelled source releases it; the
finished file calls back. -/
inductive Event where
  | inputGrows (visible : Nat) (size : BitVec 32)
  | nextGrows (visible : Nat) (size : BitVec 32)
  | onFileUpdate
  | encodeFrame (output : Output)
  | release
  | finishWriting
  | swapFiles

def step : Event → AVEncoder → Option AVEncoder
  | .inputGrows visible size, s =>
    (s.inputFile.grow visible size).map fun f => { s with inputFile := f }
  | .nextGrows visible size, s =>
    (s.next.bind (File.grow visible size)).map fun f => { s with next := some f }
  | .onFileUpdate, s => if s.readSource = .released then none else s.onFileUpdate
  | .encodeFrame output, s => some (s.encodeFrame output)
  | .release, s =>
    if s.readSource = .cancelled then some { s with readSource := .released } else none
  | .finishWriting, s =>
    if s.readSource = .released then
      some { s with inputFile := { s.inputFile with finished := true } }
    else none
  | .swapFiles, s =>
    if s.inputFile.finished = true then s.next.bind fun newFile => s.swapFiles newFile else none

/-- The steps, one constructor for each event. -/
inductive Steps (s : AVEncoder) : Event → AVEncoder → Prop where
  | inputGrows {visible : Nat} {size : BitVec 32} {f : File} :
      s.inputFile.grow visible size = some f →
      Steps s (.inputGrows visible size) { s with inputFile := f }
  | nextGrows {visible : Nat} {size : BitVec 32} {old f : File} :
      s.next = some old → old.grow visible size = some f →
      Steps s (.nextGrows visible size) { s with next := some f }
  | onFileUpdate {s' : AVEncoder} :
      s.readSource ≠ .released → s.onFileUpdate = some s' → Steps s .onFileUpdate s'
  | encodeFrame (output : Output) : Steps s (.encodeFrame output) (s.encodeFrame output)
  | release : s.readSource = .cancelled → Steps s .release { s with readSource := .released }
  | finishWriting : s.readSource = .released →
      Steps s .finishWriting { s with inputFile := { s.inputFile with finished := true } }
  | swapFiles {newFile : File} {s' : AVEncoder} :
      s.inputFile.finished = true → s.next = some newFile → s.swapFiles newFile = some s' →
      Steps s .swapFiles s'

/-- What a step can do, with all its conditions. -/
theorem step_steps {s s' : AVEncoder} {e : Event} (h : step e s = some s') : Steps s e s' := by
  cases e with
  | inputGrows visible size =>
    obtain ⟨f, hgrow, rfl⟩ := Option.map_eq_some_iff.mp h
    exact .inputGrows hgrow
  | nextGrows visible size =>
    obtain ⟨f, hgrow, rfl⟩ := Option.map_eq_some_iff.mp h
    obtain ⟨old, hnext, hgrow⟩ := Option.bind_eq_some_iff.mp hgrow
    exact .nextGrows hnext hgrow
  | onFileUpdate =>
    obtain ⟨hopen, hupdate⟩ := Option.ite_none_left_eq_some.mp h
    exact .onFileUpdate hopen hupdate
  | encodeFrame output =>
    cases h
    exact .encodeFrame output
  | release =>
    obtain ⟨hcancelled, h⟩ := Option.ite_none_right_eq_some.mp h
    cases h
    exact .release hcancelled
  | finishWriting =>
    obtain ⟨hreleased, h⟩ := Option.ite_none_right_eq_some.mp h
    cases h
    exact .finishWriting hreleased
  | swapFiles =>
    obtain ⟨hfinished, h⟩ := Option.ite_none_right_eq_some.mp h
    obtain ⟨newFile, hnext, hswap⟩ := Option.bind_eq_some_iff.mp h
    exact .swapFiles hfinished hnext hswap

/-! ### What every run keeps -/

theorem nextNumber_ne (n : Nat) : nextNumber n ≠ n := by
  unfold nextNumber MAX_FILENAME_INDEX
  split <;> omega

theorem extracting_encodeFrame {s : AVEncoder} (h : Extracting s) (output : Output) :
    Extracting (s.encodeFrame output) := by
  unfold encodeFrame
  split
  · exact h
  · rename_i hnext
    split
    · refine ⟨h.lengthSize, h.offset, h.reading, ?_, ?_, ?_⟩
      · intro hdone
        have hreleased := h.finished hdone
        rw [h.idle hnext] at hreleased
        cases hreleased
      · intro hnone
        cases hnone
      · intro f hf
        cases hf
        exact ⟨rfl, nextNumber_ne _⟩
    · exact h

/-- No file is left before its `mdat` was found. -/
def FoundBeforeSwap (s : AVEncoder) : Event → Prop
  | .swapFiles => s.foundMDAT = true
  | _ => True

/-- As long as a handler may run, the file is still recorded. -/
theorem Extracting.recording {s : AVEncoder} (h : Extracting s) (hopen : s.readSource ≠ .released) :
    s.inputFile.finished = false :=
  Bool.eq_false_iff.mpr fun hdone => hopen (h.finished hdone)

/-- A step keeps the invariant if the media was found before the files are swapped. -/
theorem step_extracting (s : AVEncoder) (e : Event) (s' : AVEncoder) (h : Extracting s)
    (hok : FoundBeforeSwap s e) (hstep : step e s = some s') : Extracting s' := by
  cases step_steps hstep with
  | inputGrows hgrow =>
    have hlonger := length_content_grow hgrow
    obtain ⟨hrecording, -, rfl⟩ := grow_cases hgrow
    exact ⟨h.lengthSize, h.offset.trans hlonger, h.reading, h.finished, h.idle, h.next⟩
  | nextGrows hnext hgrow =>
    obtain ⟨hrecording, -, rfl⟩ := grow_cases hgrow
    refine ⟨h.lengthSize, h.offset, h.reading, h.finished, ?_, ?_⟩
    · intro hnone
      cases hnone
    · intro f hf
      cases hf
      exact ⟨hrecording, (h.next _ hnext).2⟩
  | onFileUpdate hopen hupdate =>
    rcases onFileUpdate_spec h (h.recording hopen) with ⟨t, hspec, hextracting, -⟩ | ⟨hnone, -⟩
    · rw [hspec] at hupdate
      cases hupdate
      exact hextracting
    · rw [hnone] at hupdate
      cases hupdate
  | encodeFrame output => exact extracting_encodeFrame h output
  | release hcancelled =>
    refine ⟨h.lengthSize, h.offset, h.reading, fun _ => rfl, ?_, h.next⟩
    intro hnone
    have hresumed := h.idle hnone
    rw [hcancelled] at hresumed
    cases hresumed
  | finishWriting hreleased =>
    exact ⟨h.lengthSize, h.offset.trans (length_content_finish _), h.reading,
      fun _ => hreleased, h.idle, h.next⟩
  | swapFiles hfinished hnext hswap =>
    obtain ⟨t, hspec, hextracting, -⟩ := swapFiles_spec h hfinished hnext hok
    rw [hspec] at hswap
    cases hswap
    exact hextracting

/-- What the files hold in the end, in the order in which the writers opened them. -/
def outputs (s : AVEncoder) : List Output :=
  s.closed ++ s.inputFile.output :: (s.next.map (·.output)).toList

/-- Nothing of a file that was left is missing, and nothing is skipped, repeated
or cut. -/
structure InOrder (s : AVEncoder) : Prop where
  complete : s.closed.flatMap (·.nalus) <+: s.delivered
  inOrder : s.delivered <+: s.outputs.flatMap (·.nalus)

/-- By the invariant what was delivered are the units of the files, in order. -/
theorem Extracting.inOrder {s : AVEncoder} (h : Extracting s) : InOrder s := by
  obtain ⟨given, hpos, hdelivered⟩ := h.reading
  have hgiven := hpos.given_first
  constructor
  · rw [hdelivered]
    exact List.prefix_append _ _
  · rw [hdelivered, outputs, List.flatMap_append, List.flatMap_cons]
    exact (List.prefix_append_right_inj _).mpr (hgiven.trans (List.prefix_append _ _))

/-- Nothing that was handed over or opened is taken back. -/
structure Extends (s s' : AVEncoder) : Prop where
  delivered : s.delivered <+: s'.delivered
  outputs : s.outputs <+: s'.outputs

theorem extends_encodeFrame (s : AVEncoder) (output : Output) :
    Extends s (s.encodeFrame output) := by
  unfold encodeFrame
  split
  · exact ⟨List.prefix_refl _, List.prefix_refl _⟩
  · rename_i hnext
    split
    · refine ⟨List.prefix_refl _, ?_⟩
      unfold outputs
      rw [hnext]
      exact (List.prefix_append_right_inj _).mpr (List.prefix_append _ _)
    · exact ⟨List.prefix_refl _, List.prefix_refl _⟩

/-- A step only adds to what was delivered, and to the files that are closed. -/
theorem step_extends {s s' : AVEncoder} {e : Event} (h : Extracting s) (hok : FoundBeforeSwap s e)
    (hstep : step e s = some s') : Extends s s' := by
  cases step_steps hstep with
  | inputGrows hgrow =>
    obtain ⟨-, -, rfl⟩ := grow_cases hgrow
    exact ⟨List.prefix_refl _, List.prefix_refl _⟩
  | nextGrows hnext hgrow =>
    obtain ⟨-, -, rfl⟩ := grow_cases hgrow
    refine ⟨List.prefix_refl _, ?_⟩
    unfold outputs
    rw [hnext]
    exact List.prefix_refl _
  | onFileUpdate hopen hupdate =>
    rcases onFileUpdate_spec h (h.recording hopen) with ⟨t, hspec, -, hupdated, -⟩ | ⟨hnone, -⟩
    · rw [hspec] at hupdate
      cases hupdate
      refine ⟨hupdated.delivered, ?_⟩
      rw [outputs, outputs, hupdated.closed, hupdated.inputFile, hupdated.next]
    · rw [hnone] at hupdate
      cases hupdate
  | encodeFrame output => exact extends_encodeFrame s output
  | release hcancelled => exact ⟨List.prefix_refl _, List.prefix_refl _⟩
  | finishWriting hreleased => exact ⟨List.prefix_refl _, List.prefix_refl _⟩
  | swapFiles hfinished hnext hswap =>
    obtain ⟨t, hspec, -, hinput, hnone, hclosed, hdelivered⟩ := swapFiles_spec h hfinished hnext hok
    rw [hspec] at hswap
    cases hswap
    refine ⟨hdelivered, ?_⟩
    rw [outputs, outputs, hclosed, hinput, hnone, hnext, List.append_assoc]
    exact List.prefix_refl _

/-- Over a whole run, too, nothing is taken back. -/
theorem run_extends {s t : AVEncoder} {es : List Event} (h : Run step FoundBeforeSwap s es t)
    (hs : Extracting s) : Extends s t := by
  induction h with
  | nil s => exact ⟨List.prefix_refl _, List.prefix_refl _⟩
  | cons hok hstep _ ih =>
    have hone := step_extends hs hok hstep
    have hrest := ih (step_extracting _ _ _ hs hok hstep)
    exact ⟨hone.delivered.trans hrest.delivered, hone.outputs.trans hrest.outputs⟩

/-- The reader begins with the invariant. -/
theorem extracting_onParamsCompletion (output : Output) (visible : Nat) (size : BitVec 32) :
    Extracting (onParamsCompletion 4 (by decide) output visible size) := by
  refine ⟨rfl, Nat.zero_le _, ⟨[], .searching [] output.atoms rfl le_rfl rfl, rfl⟩, ?_,
    fun _ => rfl, ?_⟩
  · intro hdone
    cases hdone
  · intro f hf
    cases hf

/-- Extraction while the files grow hands over what they hold in the end. -/
theorem run_extracts (output : Output) (visible : Nat) (size : BitVec 32) {es : List Event}
    {t : AVEncoder}
    (h : Run step FoundBeforeSwap (onParamsCompletion 4 (by decide) output visible size) es t) :
    InOrder t :=
  (h.invariant step_extracting (extracting_onParamsCompletion output visible size)).inOrder

/-- In every state that such a run reaches, the handlers return, unless an atom
is too long for an `int`. -/
theorem handlers_return {output : Output} {visible : Nat} {size : BitVec 32} {es : List Event}
    {t : AVEncoder}
    (h : Run step FoundBeforeSwap (onParamsCompletion 4 (by decide) output visible size) es t) :
    (t.readSource ≠ .released → ¬ Oversized t.inputFile.output →
      ∃ s', step .onFileUpdate t = some s') ∧
    (∀ newFile, t.inputFile.finished = true → t.next = some newFile → t.foundMDAT = true →
      ∃ s', step .swapFiles t = some s') := by
  have hextracting := h.invariant step_extracting (extracting_onParamsCompletion output visible size)
  constructor
  · intro hopen hshort
    rw [step, if_neg hopen]
    rcases onFileUpdate_spec hextracting (hextracting.recording hopen) with ⟨s', hupdate, -⟩ | ⟨-, hover⟩
    · exact ⟨s', hupdate⟩
    · exact absurd hover hshort
  · intro newFile hfinished hnext hfound
    obtain ⟨s', hswap, -⟩ := swapFiles_spec hextracting hfinished hnext hfound
    rw [step, if_pos hfinished, hnext, Option.bind_some]
    exact ⟨s', hswap⟩

/-! ### Leaving a file too early -/

/-- The schedule in which the handler does not run before the file is long enough. -/
def unread (output newOutput : Output) : List Event :=
  [.inputGrows (output.layout 0).length 0, .encodeFrame newOutput, .release, .finishWriting,
    .swapFiles]

/-- At the start of a file its header is taken for the length of a unit that is
not there yet. -/
theorem readAndDeliver_header {content : List Byte} {length : Nat} (hlength : length < 2 ^ 32)
    (hlong : 4 < length) (h : StandsAt (toBE 4 length) 0 content) :
    readAndDeliver content 4 (by decide) length 0 = some (0, []) := by
  have hnat : (BitVec.ofNat 32 length).toNat = length := Nat.mod_eq_of_lt hlength
  have hlen : ((content.drop 0).take 4).length = 4 := by
    rw [(standsAt_iff_take (length_toBE 4 _)).mp h, length_toBE]
  rw [readAndDeliver, dif_pos hlong]
  simp only [to_host_standsAt h, hnat, hlen]
  rw [if_pos (by omega)]

/-- If the media was not found before the swap, no unit of the old file is delivered. -/
theorem swapFiles_unread {s : AVEncoder} {newFile : File}
    (hatoms : s.inputFile.output.atoms = []) (hfinished : s.inputFile.finished = true)
    (hsize : s.lengthSize = 4) (hpos : s.posMDAT = 0) (hoffset : s.offsetInFile = 0) :
    ∃ t, s.swapFiles newFile = some t ∧ t.closed = s.closed ++ [s.inputFile.output] ∧
      t.delivered = s.delivered := by
  have hlayout := layout_mdat s.inputFile.output (8 + (encode 4 s.inputFile.output.nalus).length)
  rw [hatoms] at hlayout
  have hlength : StandsAt (toBE 4 (8 + (encode 4 s.inputFile.output.nalus).length)) 0
      s.inputFile.content := by
    rw [File.content, if_pos hfinished]
    exact (standsAt_append.mp hlayout).1.extend _
  have hcRead := cRead_eq 0 (Nat.zero_le _) s.inputFile.output.fits
  rw [Nat.sub_zero, Nat.add_zero] at hcRead
  have hread := readAndDeliver_header s.inputFile.output.fits (by omega) hlength
  rw [swapFiles]
  simp only [hpos, hoffset, to_host_standsAt hlength, Option.bind_eq_bind, Option.bind_some,
    hcRead, readAndDeliver_four hsize, hread]
  exact ⟨_, rfl, rfl, List.append_nil _⟩

/-- The encoder when the first file shows its whole `mdat`. -/
def written (output : Output) : AVEncoder :=
  { onParamsCompletion 4 (by decide) output 0 0 with
    inputFile := ⟨1, output, (output.layout 0).length, 0, false⟩ }

theorem step_written (output : Output) :
    step (.inputGrows (output.layout 0).length 0) (onParamsCompletion 4 (by decide) output 0 0) =
      some (written output) := by
  have hgrow : File.grow (output.layout 0).length 0 ⟨1, output, 0, 0, false⟩ =
      some ⟨1, output, (output.layout 0).length, 0, false⟩ := if_pos ⟨Nat.zero_le _, rfl⟩
  simp only [step, onParamsCompletion, hgrow]
  rfl

theorem content_written (output : Output) :
    (written output).inputFile.content = output.layout 0 := by
  rw [content_recording rfl]
  exact List.take_length

/-- A file that is long enough is followed by the next one. -/
theorem encodeFrame_switches {s : AVEncoder} (newOutput : Output) (hnext : s.next = none)
    (hlong : OUTPUT_FILE_SWITCH_POINT < s.inputFile.content.length) :
    s.encodeFrame newOutput = { s with
      next := some ⟨nextNumber s.inputFile.number, newOutput, 0, 0, false⟩
      readSource := .cancelled } := by
  unfold encodeFrame
  rw [hnext]
  exact if_pos hlong

/-- A file that is left before its `mdat` was found loses all its units. -/
theorem swapFiles_before_mdat {output : Output} (newOutput : Output)
    (hatoms : output.atoms = []) (hnalus : output.nalus ≠ [])
    (hlong : OUTPUT_FILE_SWITCH_POINT < (output.layout 0).length) :
    ∃ t, Run step Unrestricted (onParamsCompletion 4 (by decide) output 0 0)
        (unread output newOutput) t ∧
      t.closed = [output] ∧ t.delivered = [] ∧ ¬ InOrder t := by
  let finished : AVEncoder := { written output with
    inputFile := ⟨1, output, (output.layout 0).length, 0, true⟩
    next := some ⟨nextNumber 1, newOutput, 0, 0, false⟩
    readSource := .released }
  have hswitch := encodeFrame_switches (s := written output) newOutput rfl
    (by rwa [content_written])
  obtain ⟨t, hswap, hleft, hnothing⟩ :=
    swapFiles_unread (s := finished) hatoms rfl rfl rfl rfl
  have hclosed : t.closed = [output] := hleft
  have hdelivered : t.delivered = [] := hnothing
  have hloses : ¬ InOrder t := by
    rintro ⟨hcomplete, -⟩
    rw [hclosed, hdelivered, List.prefix_nil, List.flatMap_singleton] at hcomplete
    exact hnalus hcomplete
  exact ⟨t, .cons trivial (step_written output) (.cons trivial (congrArg some hswitch)
    (.cons trivial rfl (.cons trivial rfl (.cons trivial hswap (.nil t))))),
    hclosed, hdelivered, hloses⟩

/-- A file of one unit. -/
def oneUnit (nalu : List Byte) (hne : nalu ≠ []) (hfits : 12 + nalu.length < 2 ^ 32) : Output where
  atoms := []
  nalus := [nalu]
  trailer := []
  nalus_ne_nil := by
    intro other hmem
    rwa [List.mem_singleton.mp hmem]
  fits := by
    rw [encode_cons, encode_nil, List.append_nil, length_frame]
    omega

theorem length_oneUnit {nalu : List Byte} (hne : nalu ≠ []) (hfits : 12 + nalu.length < 2 ^ 32) :
    ((oneUnit nalu hne hfits).layout 0).length = 12 + nalu.length := by
  rw [length_layout]
  simp only [oneUnit, atomsBytes, List.flatMap_nil, List.length_nil, encode_cons, encode_nil,
    List.append_nil, length_frame]
  omega

/-- More than 50 MB. -/
def longUnit : List Byte := 0x65#8 :: List.replicate (2 ^ 26) 0#8

theorem length_longUnit : longUnit.length = 2 ^ 26 + 1 := by
  rw [longUnit, List.length_cons, List.length_replicate]

theorem longUnit_ne_nil : longUnit ≠ [] := List.cons_ne_nil _ _

theorem longUnit_fits : 12 + longUnit.length < 2 ^ 32 := by
  rw [length_longUnit]
  omega

def longOutput : Output := oneUnit longUnit longUnit_ne_nil longUnit_fits

/-- In a run that swaps too early the units of the first file are lost. -/
theorem units_are_lost :
    ∃ t, Run step Unrestricted (onParamsCompletion 4 (by decide) longOutput 0 0)
        (unread longOutput longOutput) t ∧
      t.closed = [longOutput] ∧ t.delivered = [] ∧ ¬ InOrder t := by
  have hlength : (longOutput.layout 0).length = 12 + longUnit.length := length_oneUnit _ _
  refine swapFiles_before_mdat longOutput rfl (List.cons_ne_nil _ _) ?_
  rw [hlength, length_longUnit, OUTPUT_FILE_SWITCH_POINT]
  omega

/-- The schedule in which the handler runs once before the file is left. -/
def readThrough (output newOutput : Output) : List Event :=
  .inputGrows (output.layout 0).length 0 :: .onFileUpdate :: (unread output newOutput).tail

/-- A file that is read before the swap is delivered as a whole. -/
theorem run_readThrough {output : Output} (newOutput : Output) (hshows : Shows (written output))
    (hlong : OUTPUT_FILE_SWITCH_POINT < (output.layout 0).length) :
    ∃ t, Run step FoundBeforeSwap (onParamsCompletion 4 (by decide) output 0 0)
        (readThrough output newOutput) t ∧
      t.closed = [output] := by
  have hwritten : Extracting (written output) :=
    step_extracting _ (.inputGrows _ _) _ (extracting_onParamsCompletion output 0 0) trivial
      (step_written output)
  rcases onFileUpdate_spec hwritten rfl with ⟨s, hupdate, hextracting, hupdated, hfound⟩ | ⟨-, hover⟩
  · have hinput : s.inputFile = (written output).inputFile := hupdated.inputFile
    have hswitch := encodeFrame_switches (s := s) newOutput hupdated.next
      (by rwa [hinput, content_written])
    let released : AVEncoder := { s with
      next := some ⟨nextNumber s.inputFile.number, newOutput, 0, 0, false⟩
      readSource := .released }
    let finished : AVEncoder := { released with
      inputFile := { s.inputFile with finished := true } }
    have hencode : step (.encodeFrame newOutput) s = some (s.encodeFrame newOutput) := rfl
    have hrelease : step .release (s.encodeFrame newOutput) = some released := by
      rw [hswitch]
      rfl
    have hfinish : step .finishWriting released = some finished := rfl
    have hextracting' : Extracting finished :=
      step_extracting _ .finishWriting _ (step_extracting _ .release _
        (extracting_encodeFrame hextracting newOutput) trivial hrelease) trivial hfinish
    have hmdat := hfound hshows
    obtain ⟨t, hswap, -, -, -, hclosed, -⟩ := swapFiles_spec hextracting' rfl rfl hmdat
    have hread : step .onFileUpdate (written output) = some s := hupdate
    refine ⟨t, .cons trivial (step_written output) (.cons trivial hread (.cons trivial hencode
      (.cons trivial hrelease (.cons trivial hfinish (.cons hmdat hswap (.nil t)))))), ?_⟩
    have hfirst : finished.closed ++ [finished.inputFile.output] = [output] := by
      rw [show finished.closed = [] from hupdated.closed]
      exact congrArg (fun f => [f.output]) hinput
    exact hclosed.trans hfirst
  · exact absurd hover hshows.oversized

theorem run_extracts_long_output :
    ∃ t, Run step FoundBeforeSwap (onParamsCompletion 4 (by decide) longOutput 0 0)
        (readThrough longOutput longOutput) t ∧
      t.closed = [longOutput] ∧ InOrder t := by
  have hlength : (longOutput.layout 0).length = 12 + longUnit.length := length_oneUnit _ _
  rw [length_longUnit] at hlength
  have hshows : Shows (written longOutput) := by
    constructor
    case oversized =>
      rintro ⟨a, hmem, -⟩
      cases hmem
    case mdat =>
      rw [content_written, hlength]
      exact Nat.lt_of_lt_of_le (by decide : 0 + 8 < 12) (Nat.le_add_right _ _)
    case length =>
      rw [content_written, hlength]
      omega
  obtain ⟨t, hrun, hclosed⟩ := run_readThrough longOutput hshows
    (by rw [hlength, OUTPUT_FILE_SWITCH_POINT]; omega)
  exact ⟨t, hrun, hclosed, run_extracts longOutput 0 0 hrun⟩

end Sogx.AVEncoder
