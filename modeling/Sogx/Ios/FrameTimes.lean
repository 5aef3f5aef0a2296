import Sogx.Ios.AVEncoder
import Sogx.Ios.EncodedFrames
import Sogx.Lib.Machine

/-!
`AVEncoder.mm` with `VideoEncoder.m`: how a picture gets its time.

`encodeFrame:` queues the time of a sample and then hands the sample to the
writer, which may refuse it. The reader takes the first of the queued times for
each picture.

* `run_queued`: in every run the times that were queued are those that went out,
  then those still queued, and the pictures that went out are those of the
  accepted samples.
* `ownTimes_iff`: a picture has the time of its own sample as far as the samples
  given and the samples accepted have the same times.
* `run_ownTimes`: it has when no sample was refused.
* `refused_sample_shifts`: one refused sample moves the times behind it.
-/

namespace Sogx

open Sogx.Lib
open Frames (Slice)

structure SampleBuffer (Pts : Type) where
  prestime : Pts
  dataIsReady : Bool

inductive AVAssetWriterStatus where
  | unknown | writing | completed | failed | cancelled
deriving DecidableEq, Repr

structure VideoEncoder where
  status : AVAssetWriterStatus

/-- What the writer answers during a call: the status that `startWriting` leaves,
and whether its input is ready. -/
structure WriterAnswers where
  started : AVAssetWriterStatus
  readyForMoreMediaData : Bool

namespace VideoEncoder

def encoderForPath : VideoEncoder := ⟨.unknown⟩

def encodeFrame {Pts : Type} (sampleBuffer : SampleBuffer Pts) (answers : WriterAnswers)
    (v : VideoEncoder) : Bool × VideoEncoder :=
  if sampleBuffer.dataIsReady = true then
    let v := if v.status = .unknown then ⟨answers.started⟩ else v
    if v.status = .failed then (false, v)
    else if answers.readyForMoreMediaData = true then (true, v)
    else (false, v)
  else (false, v)

/-- The data is ready, the writer has not failed and its input is ready. -/
structure Accepts {Pts : Type} (v : VideoEncoder) (sampleBuffer : SampleBuffer Pts)
    (answers : WriterAnswers) : Prop where
  data : sampleBuffer.dataIsReady = true
  working : (if v.status = .unknown then answers.started else v.status) ≠ .failed
  input : answers.readyForMoreMediaData = true

instance {Pts : Type} (v : VideoEncoder) (sampleBuffer : SampleBuffer Pts)
    (answers : WriterAnswers) : Decidable (v.Accepts sampleBuffer answers) :=
  decidable_of_iff (sampleBuffer.dataIsReady = true ∧
      (if v.status = .unknown then answers.started else v.status) ≠ .failed ∧
      answers.readyForMoreMediaData = true)
    ⟨fun h => ⟨h.1, h.2.1, h.2.2⟩, fun h => ⟨h.data, h.working, h.input⟩⟩

theorem encodeFrame_accepts {Pts : Type} {v : VideoEncoder} {sampleBuffer : SampleBuffer Pts}
    {answers : WriterAnswers} (h : v.Accepts sampleBuffer answers) :
    (v.encodeFrame sampleBuffer answers).1 = true := by
  have hworking : (if v.status = .unknown then ⟨answers.started⟩ else v).status ≠ .failed := by
    rw [apply_ite VideoEncoder.status]
    exact h.working
  unfold encodeFrame
  dsimp only
  rw [if_pos h.data, if_neg hworking, if_pos h.input]

end VideoEncoder

/-- Where a call of `encodeFrame:` is: before its first block, before the time is
queued, before the switch of files, and before the writer gets the sample. -/
inductive Encoding (Pts : Type) where
  | idle
  | called (sampleBuffer : SampleBuffer Pts)
  | headed (sampleBuffer : SampleBuffer Pts)
  | timed (sampleBuffer : SampleBuffer Pts)
  | switched (sampleBuffer : SampleBuffer Pts)

/-- The sample whose time is queued and which the writer has not got. -/
def Encoding.queued {Pts : Type} : Encoding Pts → List (SampleBuffer Pts)
  | .timed sampleBuffer => [sampleBuffer]
  | .switched sampleBuffer => [sampleBuffer]
  | _ => []

/-- The sample that the writer gets next. -/
def Encoding.atWriter {Pts : Type} : Encoding Pts → Option (SampleBuffer Pts)
  | .switched sampleBuffer => some sampleBuffer
  | _ => none

/-- A coded picture of one slice. -/
structure Picture where
  slice : Slice
  first_zero : slice.first_mb = 0

def Picture.nalus (p : Picture) : List Nalu := [p.slice.nalu]

/-- The encoder as it stamps pictures. `reading` says that `_inputFile` is open.
`given` are the samples whose time was queued, `accepted` those that the writers
took, and `pictures` what the reader was given, with the samples they come from. -/
structure FrameTimes (Pts : Type) where
  needParams : Bool
  headerWriter : Option VideoEncoder
  headerFinishing : Bool
  writer : VideoEncoder
  swapping : Bool
  reading : Bool
  encoding : Encoding Pts
  frames : Frames Pts
  given : List (SampleBuffer Pts)
  accepted : List (SampleBuffer Pts)
  pictures : List (Picture × SampleBuffer Pts)

namespace FrameTimes

variable {Pts : Type}

/-- `initForHeight:andWidth:`, then `encodeWithBlock:onParams:`. -/
def start (clock : Clock Pts) : FrameTimes Pts where
  needParams := true
  headerWriter := some .encoderForPath
  headerFinishing := false
  writer := .encoderForPath
  swapping := false
  reading := false
  encoding := .idle
  frames := Frames.encodeWithBlock clock
  given := []
  accepted := []
  pictures := []

/-- The first block of `encodeFrame:`. -/
def writeHeader (answers : WriterAnswers) (s : FrameTimes Pts) : Option (FrameTimes Pts) :=
  match s.encoding with
  | .called sampleBuffer =>
    if s.needParams = true then
      match s.headerWriter with
      | some w =>
        let (ok, w) := w.encodeFrame sampleBuffer answers
        some { s with
          needParams := false
          headerWriter := some w
          headerFinishing := ok
          encoding := .headed sampleBuffer }
      | none => some { s with needParams := false, encoding := .headed sampleBuffer }
    else some { s with encoding := .headed sampleBuffer }
  | _ => none

/-- The block that queues the time. -/
def addTime (s : FrameTimes Pts) : Option (FrameTimes Pts) :=
  match s.encoding with
  | .headed sampleBuffer =>
    some { s with
      encoding := .timed sampleBuffer
      frames := { s.frames with times := s.frames.times ++ [sampleBuffer.prestime] }
      given := s.given ++ [sampleBuffer] }
  | _ => none

/-- The switch of files. Without an input file the size asked is that of
descriptor 0, which is no file. -/
def switchFile (st_size : Nat) (s : FrameTimes Pts) : Option (FrameTimes Pts) :=
  match s.encoding with
  | .timed sampleBuffer =>
    if s.swapping = false ∧ s.reading = true ∧ OUTPUT_FILE_SWITCH_POINT < st_size then
      some { s with swapping := true, writer := .encoderForPath, encoding := .switched sampleBuffer }
    else some { s with encoding := .switched sampleBuffer }
  | _ => none

/-- The last line of `encodeFrame:`, which does not look at what the writer returns. -/
def write (answers : WriterAnswers) (s : FrameTimes Pts) : Option (FrameTimes Pts) :=
  match s.encoding with
  | .switched sampleBuffer =>
    let (ok, writer) := s.writer.encodeFrame sampleBuffer answers
    some { s with
      writer
      encoding := .idle
      accepted := if ok = true then s.accepted ++ [sampleBuffer] else s.accepted }
  | _ => none

def onParamsCompletion (parsed : Bool) (s : FrameTimes Pts) : Option (FrameTimes Pts) :=
  if s.headerFinishing = true then
    if parsed = true then
      some { s with
        headerFinishing := false
        headerWriter := none
        swapping := false
        reading := true }
    else some { s with headerFinishing := false }
  else none

/-- The picture of the next accepted sample reaches `onNALU:`. -/
def onNALU (clock : Clock Pts) (fuel : Nat) (picture : Picture) (s : FrameTimes Pts) :
    Option (FrameTimes Pts) :=
  if s.reading = true then
    match s.accepted[s.pictures.length]?, s.frames.onNALU clock fuel picture.slice.nalu with
    | some sampleBuffer, .ok frames =>
      some { s with frames, pictures := s.pictures ++ [(picture, sampleBuffer)] }
    | _, _ => none
  else none

/-- What may happen next, on the capture thread, in the writers and on the reader's queue. -/
inductive Event (Pts : Type) where
  | encodeFrame (sampleBuffer : SampleBuffer Pts)
  | writeHeader (answers : WriterAnswers)
  | addTime
  | switchFile (st_size : Nat)
  | write (answers : WriterAnswers)
  | writerFails
  | onParamsCompletion (parsed : Bool)
  | swapFiles
  | onNALU (fuel : Nat) (picture : Picture)

def step (clock : Clock Pts) : Event Pts → FrameTimes Pts → Option (FrameTimes Pts)
  | .encodeFrame sampleBuffer, s =>
    match s.encoding with
    | .idle => some { s with encoding := .called sampleBuffer }
    | _ => none
  | .writeHeader answers, s => s.writeHeader answers
  | .addTime, s => s.addTime
  | .switchFile st_size, s => s.switchFile st_size
  | .write answers, s => s.write answers
  | .writerFails, s => some { s with writer := ⟨.failed⟩ }
  | .onParamsCompletion parsed, s => s.onParamsCompletion parsed
  | .swapFiles, s => if s.swapping = true then some { s with swapping := false } else none
  | .onNALU fuel picture, s => s.onNALU clock fuel picture

/-- The steps as far as the times, the samples and the pictures are concerned. -/
inductive Change (clock : Clock Pts) (s s' : FrameTimes Pts) : Event Pts → Prop where
  | quiet {e : Event Pts} : s'.frames = s.frames → s'.given = s.given →
      s'.accepted = s.accepted → s'.pictures = s.pictures →
      s'.encoding.queued = s.encoding.queued → Change clock s s' e
  | timed (sampleBuffer : SampleBuffer Pts) : s.encoding.queued = [] →
      s'.encoding.queued = [sampleBuffer] → s'.given = s.given ++ [sampleBuffer] →
      s'.frames = { s.frames with times := s.frames.times ++ [sampleBuffer.prestime] } →
      s'.accepted = s.accepted → s'.pictures = s.pictures → Change clock s s' .addTime
  | written (sampleBuffer : SampleBuffer Pts) (answers : WriterAnswers) :
      s.encoding = .switched sampleBuffer → s'.encoding.queued = [] →
      s'.accepted = (if (s.writer.encodeFrame sampleBuffer answers).1 = true then
        s.accepted ++ [sampleBuffer] else s.accepted) →
      s'.frames = s.frames → s'.given = s.given → s'.pictures = s.pictures →
      Change clock s s' (.write answers)
  | read (fuel : Nat) (picture : Picture) (sampleBuffer : SampleBuffer Pts) :
      s.accepted[s.pictures.length]? = some sampleBuffer →
      s.frames.onNALU clock fuel picture.slice.nalu = .ok s'.frames →
      s'.pictures = s.pictures ++ [(picture, sampleBuffer)] →
      s'.given = s.given → s'.accepted = s.accepted → s'.encoding = s.encoding →
      Change clock s s' (.onNALU fuel picture)

variable {clock : Clock Pts}

/-- What a step can do to the frames and the times. -/
theorem step_change {s s' : FrameTimes Pts} {e : Event Pts} (h : step clock e s = some s') :
    Change clock s s' e := by
  cases e with
  | encodeFrame sampleBuffer =>
    cases henc : s.encoding with
    | idle =>
      simp only [step, henc] at h
      cases h
      exact .quiet rfl rfl rfl rfl (congrArg Encoding.queued henc).symm
    | _ => simp only [step, henc] at h; cases h
  | writeHeader answers =>
    cases henc : s.encoding with
    | called sampleBuffer =>
      simp only [step, writeHeader, henc] at h
      have hqueued := (congrArg Encoding.queued henc).symm
      split at h
      · split at h
        · cases h
          exact .quiet rfl rfl rfl rfl hqueued
        · cases h
          exact .quiet rfl rfl rfl rfl hqueued
      · cases h
        exact .quiet rfl rfl rfl rfl hqueued
    | _ => simp only [step, writeHeader, henc] at h; cases h
  | addTime =>
    cases henc : s.encoding with
    | headed sampleBuffer =>
      simp only [step, addTime, henc] at h
      cases h
      exact .timed sampleBuffer (congrArg Encoding.queued henc) rfl rfl rfl rfl rfl
    | _ => simp only [step, addTime, henc] at h; cases h
  | switchFile st_size =>
    cases henc : s.encoding with
    | timed sampleBuffer =>
      simp only [step, switchFile, henc] at h
      have hqueued := (congrArg Encoding.queued henc).symm
      split at h
      · cases h
        exact .quiet rfl rfl rfl rfl hqueued
      · cases h
        exact .quiet rfl rfl rfl rfl hqueued
    | _ => simp only [step, switchFile, henc] at h; cases h
  | write answers =>
    cases henc : s.encoding with
    | switched sampleBuffer =>
      simp only [step, write, henc] at h
      cases h
      exact .written sampleBuffer answers henc rfl rfl rfl rfl rfl
    | _ => simp only [step, write, henc] at h; cases h
  | writerFails =>
    cases h
    exact .quiet rfl rfl rfl rfl rfl
  | onParamsCompletion parsed =>
    simp only [step, onParamsCompletion] at h
    split at h
    · split at h
      · cases h
        exact .quiet rfl rfl rfl rfl rfl
      · cases h
        exact .quiet rfl rfl rfl rfl rfl
    · cases h
  | swapFiles =>
    obtain ⟨-, h⟩ := Option.ite_none_right_eq_some.mp h
    cases h
    exact .quiet rfl rfl rfl rfl rfl
  | onNALU fuel picture =>
    obtain ⟨-, h⟩ := Option.ite_none_right_eq_some.mp h
    split at h
    · rename_i sampleBuffer frames hsample hframes
      cases h
      exact .read fuel picture sampleBuffer hsample hframes rfl rfl rfl rfl
    · cases h

/-! ### The times in the queue -/

/-- A frame takes the first of the times, so all of them stay in order. -/
theorem times_onEncodedFrame {f : Frames Pts} (h : f.times ≠ []) (pending : List Nalu) :
    (f.onEncodedFrame clock pending).output.map Prod.snd ++ (f.onEncodedFrame clock pending).times =
      f.output.map Prod.snd ++ f.times := by
  unfold Frames.onEncodedFrame
  cases htimes : f.times with
  | nil => exact absurd htimes h
  | cons pts times =>
    dsimp only
    rw [List.map_append, List.append_assoc]
    rfl

/-- What a picture does to the frames: the one before it goes out with the first
of the times. -/
theorem onNALU_picture {fuel : Nat} {p : Picture} {f f' : Frames Pts}
    (h : f.onNALU clock fuel p.slice.nalu = .ok f')
    (htimes : f.pendingNALU ≠ none → f.times ≠ []) :
    f'.pendingNALU = some p.nalus ∧
      f'.output.map Prod.fst = f.output.map Prod.fst ++ f.pendingNALU.toList ∧
      f'.output.map Prod.snd ++ f'.times = f.output.map Prod.snd ++ f.times := by
  cases hp : f.pendingNALU with
  | none =>
    rw [Frames.onNALU_of_none hp] at h
    obtain rfl := Except.ok.inj h
    exact ⟨rfl, (List.append_nil _).symm, rfl⟩
  | some pending =>
    obtain ⟨-, ⟨-, rfl⟩ | ⟨hnot, -⟩⟩ := Frames.onNALU_slice hp h
    · have hne : f.times ≠ [] := htimes (by rw [hp]; exact Option.some_ne_none pending)
      exact ⟨rfl, Frames.output_onEncodedFrame f pending, times_onEncodedFrame hne pending⟩
    · exact absurd (.inr p.first_zero) hnot

theorem map_dropLast_append {A B : Type} (f : A → B) (l : List A) :
    l.dropLast.map f ++ (l.getLast?.map f).toList = l.map f := by
  rcases List.eq_nil_or_concat l with rfl | ⟨xs, x, rfl⟩
  · rfl
  · rw [List.concat_eq_append, List.dropLast_concat, List.getLast?_concat, List.map_append]
    rfl

theorem concat_prefix {A : Type} {xs ys : List A} {y : A} (h : xs <+: ys)
    (hy : ys[xs.length]? = some y) : xs ++ [y] <+: ys := by
  obtain ⟨zs, rfl⟩ := h
  rw [List.getElem?_append_right le_rfl, Nat.sub_self] at hy
  cases zs with
  | nil => cases hy
  | cons z zs =>
    cases hy
    exact ⟨zs, List.append_cons xs y zs |>.symm⟩

theorem getElem?_of_prefix {A : Type} {xs ys : List A} {k : Nat} {x : A} (h : xs <+: ys)
    (hk : xs[k]? = some x) : ys[k]? = some x := by
  obtain ⟨zs, rfl⟩ := h
  rw [List.getElem?_append_left (List.getElem?_eq_some_iff.mp hk).1]
  exact hk

/-- The times are queued, and go out, in the order in which the samples were
given; the pictures are those of the accepted samples, and each has gone out but
the last. -/
structure Queued (s : FrameTimes Pts) : Prop where
  times : s.given.map SampleBuffer.prestime = s.frames.output.map Prod.snd ++ s.frames.times
  output : s.frames.output.map Prod.fst = s.pictures.dropLast.map fun p => p.1.nalus
  pending : s.frames.pendingNALU = s.pictures.getLast?.map fun p => p.1.nalus
  produced : s.pictures.map Prod.snd <+: s.accepted
  sublist : (s.accepted ++ s.encoding.queued).Sublist s.given

/-- Behind each picture that is pending there is a time. -/
theorem Queued.times_ne_nil {s : FrameTimes Pts} (h : Queued s) (hp : s.frames.pendingNALU ≠ none) :
    s.frames.times ≠ [] := by
  have hne : s.pictures ≠ [] := by
    intro hnil
    rw [h.pending, hnil] at hp
    exact hp rfl
  have hlast : 0 < s.pictures.length := List.length_pos_iff.mpr hne
  have houtput : s.frames.output.length = s.pictures.length - 1 := by
    have hlength := congrArg List.length h.output
    rwa [List.length_map, List.length_map, List.length_dropLast] at hlength
  have hproduced : s.pictures.length ≤ s.accepted.length := by
    have hlength := h.produced.length_le
    rwa [List.length_map] at hlength
  have haccepted : s.accepted.length ≤ s.given.length :=
    (List.sublist_append_left _ _).trans h.sublist |>.length_le
  have hgiven : s.given.length = s.frames.output.length + s.frames.times.length := by
    have hlength := congrArg List.length h.times
    rwa [List.length_map, List.length_append, List.length_map] at hlength
  apply List.ne_nil_of_length_pos
  omega

theorem queued_start (clock : Clock Pts) : Queued (start clock) where
  times := rfl
  output := rfl
  pending := rfl
  produced := List.prefix_refl _
  sublist := List.Sublist.refl _

/-- A step that reads no picture keeps the pictures in order; what it does to the
times and the samples is left to show. -/
theorem Queued.unread {s s' : FrameTimes Pts} (h : Queued s)
    (houtput : s'.frames.output = s.frames.output)
    (hpending : s'.frames.pendingNALU = s.frames.pendingNALU) (hpictures : s'.pictures = s.pictures)
    (haccepted : s.accepted <+: s'.accepted)
    (htimes : s'.given.map SampleBuffer.prestime =
      s.frames.output.map Prod.snd ++ s'.frames.times)
    (hsublist : (s'.accepted ++ s'.encoding.queued).Sublist s'.given) : Queued s' where
  times := by rw [houtput, htimes]
  output := by rw [houtput, hpictures, h.output]
  pending := by rw [hpending, hpictures, h.pending]
  produced := by
    rw [hpictures]
    exact h.produced.trans haccepted
  sublist := hsublist

/-- A step keeps the times that wait in the order of the frames. -/
theorem step_queued (s : FrameTimes Pts) (e : Event Pts) (s' : FrameTimes Pts) (h : Queued s)
    (hstep : step clock e s = some s') : Queued s' := by
  cases step_change hstep with
  | quiet hframes hgiven haccepted hpictures hqueued =>
    refine h.unread (by rw [hframes]) (by rw [hframes]) hpictures (by rw [haccepted]) ?_ ?_
    · rw [hgiven, hframes]
      exact h.times
    · rw [haccepted, hqueued, hgiven]
      exact h.sublist
  | timed sampleBuffer hidle hqueued hgiven hframes haccepted hpictures =>
    refine h.unread (by rw [hframes]) (by rw [hframes]) hpictures (by rw [haccepted]) ?_ ?_
    · rw [hgiven, hframes, List.map_append, h.times, List.append_assoc]
      rfl
    · have hsublist := h.sublist
      rw [hidle, List.append_nil] at hsublist
      rw [haccepted, hqueued, hgiven]
      exact hsublist.append (List.Sublist.refl _)
  | written sampleBuffer answers henc hqueued haccepted hframes hgiven hpictures =>
    have hsublist := h.sublist
    rw [henc] at hsublist
    refine h.unread (by rw [hframes]) (by rw [hframes]) hpictures ?_ ?_ ?_
    · rw [haccepted]
      split
      · exact List.prefix_append _ _
      · exact List.prefix_refl _
    · rw [hgiven, hframes]
      exact h.times
    · rw [hqueued, List.append_nil, haccepted, hgiven]
      split
      · exact hsublist
      · exact (List.sublist_append_left _ _).trans hsublist
  | read fuel picture sampleBuffer hsample hframes hpictures hgiven haccepted henc =>
    obtain ⟨hpending, houtput, htimes⟩ := onNALU_picture hframes h.times_ne_nil
    refine ⟨?_, ?_, ?_, ?_, ?_⟩
    · rw [hgiven, htimes]
      exact h.times
    · rw [houtput, hpictures, List.dropLast_concat, h.output, h.pending]
      exact map_dropLast_append _ s.pictures
    · rw [hpending, hpictures, List.getLast?_concat]
      rfl
    · rw [hpictures, List.map_append, haccepted]
      exact concat_prefix h.produced (by rwa [List.length_map])
    · rw [haccepted, henc, hgiven]
      exact h.sublist

/-- In every run, whatever is refused. -/
theorem run_queued {ok : FrameTimes Pts → Event Pts → Prop} {es : List (Event Pts)}
    {s : FrameTimes Pts} (h : Run (step clock) ok (start clock) es s) : Queued s :=
  h.invariant (fun s e s' hs _ hstep => step_queued s e s' hs hstep) (queued_start clock)

/-! ### The time of a picture -/

/-- The output block was called with the pictures in order, each with the time
of the sample it comes from. -/
def OwnTimes (s : FrameTimes Pts) : Prop :=
  ∀ (k : Nat) nalus pts, s.frames.output[k]? = some (nalus, pts) →
    ∃ (picture : Picture) (sampleBuffer : SampleBuffer Pts),
      s.pictures[k]? = some (picture, sampleBuffer) ∧
      nalus = picture.nalus ∧ pts = sampleBuffer.prestime

/-- A call hands over the picture of an accepted sample and the time of a given one. -/
theorem Queued.call {s : FrameTimes Pts} (h : Queued s) {k : Nat} {nalus : List Nalu} {pts : Pts}
    (hk : s.frames.output[k]? = some (nalus, pts)) :
    ∃ (picture : Picture) (sampleBuffer : SampleBuffer Pts),
      s.pictures[k]? = some (picture, sampleBuffer) ∧
      nalus = picture.nalus ∧ s.accepted[k]? = some sampleBuffer ∧
      (s.given.map SampleBuffer.prestime)[k]? = some pts := by
  have hfst : (s.frames.output.map Prod.fst)[k]? = some nalus := by
    rw [List.getElem?_map, hk]
    rfl
  have hsnd : (s.frames.output.map Prod.snd)[k]? = some pts := by
    rw [List.getElem?_map, hk]
    rfl
  rw [h.output, List.getElem?_map] at hfst
  obtain ⟨⟨picture, sampleBuffer⟩, hpicture, rfl⟩ := Option.map_eq_some_iff.mp hfst
  have hall : s.pictures[k]? = some (picture, sampleBuffer) :=
    getElem?_of_prefix (List.dropLast_prefix _) hpicture
  refine ⟨picture, sampleBuffer, hall, rfl, ?_, ?_⟩
  · apply getElem?_of_prefix h.produced
    rw [List.getElem?_map, hall]
    rfl
  · rw [h.times]
    exact getElem?_of_prefix (List.prefix_append _ _) hsnd

/-- As far as calls were made, the samples given and the samples accepted have
the same times. -/
theorem ownTimes_iff {s : FrameTimes Pts} (h : Queued s) :
    OwnTimes s ↔ ∀ k < s.frames.output.length,
      (s.given.map SampleBuffer.prestime)[k]? = (s.accepted.map SampleBuffer.prestime)[k]? := by
  constructor
  · intro hown k hk
    have hcall := List.getElem?_eq_getElem hk
    obtain ⟨picture, sampleBuffer, hpicture, -, haccepted, hgiven⟩ := h.call hcall
    obtain ⟨picture', sampleBuffer', hpicture', -, hpts⟩ := hown k _ _ hcall
    rw [hpicture] at hpicture'
    obtain ⟨rfl, rfl⟩ := Prod.mk.inj (Option.some.inj hpicture')
    rw [hgiven, List.getElem?_map, haccepted, hpts]
    rfl
  · intro hsame k nalus pts hcall
    obtain ⟨picture, sampleBuffer, hpicture, hnalus, haccepted, hgiven⟩ := h.call hcall
    refine ⟨picture, sampleBuffer, hpicture, hnalus, ?_⟩
    have hk : k < s.frames.output.length := (List.getElem?_eq_some_iff.mp hcall).1
    rw [hsame k hk, List.getElem?_map, haccepted] at hgiven
    exact (Option.some.inj hgiven).symm

/-- The writer takes each sample that it is handed. -/
def NoneRefused (s : FrameTimes Pts) : Event Pts → Prop
  | .write answers => ∀ sampleBuffer ∈ s.encoding.atWriter, s.writer.Accepts sampleBuffer answers
  | _ => True

instance : DecidableRel (@NoneRefused Pts)
  | s, .write answers => inferInstanceAs (Decidable
      (∀ sampleBuffer ∈ s.encoding.atWriter, s.writer.Accepts sampleBuffer answers))
  | _, .encodeFrame _ | _, .writeHeader _ | _, .addTime | _, .switchFile _ | _, .writerFails
  | _, .onParamsCompletion _ | _, .swapFiles | _, .onNALU _ _ => isTrue trivial

/-- Of the samples given, the writers took all but the one of the current call. -/
def AllTaken (s : FrameTimes Pts) : Prop := s.given = s.accepted ++ s.encoding.queued

/-- As long as the writer refuses nothing, every time is that of a frame that was taken. -/
theorem step_allTaken (s : FrameTimes Pts) (e : Event Pts) (s' : FrameTimes Pts) (h : AllTaken s)
    (hok : NoneRefused s e) (hstep : step clock e s = some s') : AllTaken s' := by
  unfold AllTaken at h ⊢
  cases step_change hstep with
  | quiet _ hgiven haccepted _ hqueued => rw [hgiven, haccepted, hqueued, h]
  | timed sampleBuffer hidle hqueued hgiven _ haccepted _ =>
    rw [hgiven, haccepted, hqueued, h, hidle, List.append_nil]
  | written sampleBuffer answers henc hqueued haccepted _ hgiven _ =>
    have hat : sampleBuffer ∈ s.encoding.atWriter := by
      rw [henc]
      exact Option.mem_some_self sampleBuffer
    have htaken := VideoEncoder.encodeFrame_accepts (hok sampleBuffer hat)
    rw [hgiven, haccepted, if_pos htaken, hqueued, List.append_nil, h, henc]
    rfl
  | read _ _ _ _ _ _ hgiven haccepted henc => rw [hgiven, haccepted, henc, h]

/-- When no sample is refused, every picture goes out with the time of its own
sample. -/
theorem run_ownTimes {es : List (Event Pts)} {s : FrameTimes Pts}
    (h : Run (step clock) NoneRefused (start clock) es s) : OwnTimes s := by
  have htaken : AllTaken s := h.invariant step_allTaken rfl
  have hqueued := run_queued h
  rw [ownTimes_iff hqueued]
  intro k hk
  obtain ⟨picture, sampleBuffer, -, -, haccepted, hgiven⟩ :=
    hqueued.call (List.getElem?_eq_getElem hk)
  have hsame : (s.accepted.map SampleBuffer.prestime)[k]? = some sampleBuffer.prestime := by
    rw [List.getElem?_map, haccepted]
    rfl
  rw [hsame, htaken, List.map_append]
  exact getElem?_of_prefix (List.prefix_append _ _) hsame

/-! ### A refused sample -/

def ready : WriterAnswers := ⟨.writing, true⟩

/-- One call of `encodeFrame:`, with what the main writer answers. -/
def encode (pts : Int) (answers : WriterAnswers) : List (Event Int) :=
  [.encodeFrame ⟨pts, true⟩, .writeHeader ready, .addTime, .switchFile 0, .write answers]

theorem idrSlice_first : Frames.idrSlice.first_mb = 0 := rfl

theorem pSlice_first : Frames.pSlice.first_mb = 0 := rfl

def idrPicture : Picture := ⟨Frames.idrSlice, idrSlice_first⟩

def pPicture : Picture := ⟨Frames.pSlice, pSlice_first⟩

/-- Three samples are accepted, and their pictures read. -/
def threePictures : List (Event Int) :=
  [.onParamsCompletion true, .onNALU 0 idrPicture, .onNALU 0 pPicture, .onNALU 0 idrPicture]

theorem run_ownTimes_of_three : ∃ s : FrameTimes Int,
    Run (step Frames.wholeSeconds) NoneRefused (start Frames.wholeSeconds)
      (encode 0 ready ++ encode 1 ready ++ encode 2 ready ++ threePictures) s ∧
    s.frames.output.map Prod.snd = [0, 1] ∧ OwnTimes s := by
  have hrun : Run (step Frames.wholeSeconds) NoneRefused (start Frames.wholeSeconds)
      (encode 0 ready ++ encode 1 ready ++ encode 2 ready ++ threePictures) _ :=
    exec_iff_run.mp rfl
  exact ⟨_, hrun, rfl, run_ownTimes hrun⟩

/-- The writer's input was not ready for the second of four samples. -/
theorem refused_sample_shifts : ∃ (es : List (Event Int)) (s : FrameTimes Int),
    Run (step Frames.wholeSeconds) Unrestricted (start Frames.wholeSeconds) es s ∧
      ¬ OwnTimes s := by
  refine ⟨encode 0 ready ++ encode 1 ⟨.writing, false⟩ ++ encode 2 ready ++ encode 3 ready ++
    threePictures, _, exec_iff_run.mp rfl, ?_⟩
  intro hown
  obtain ⟨picture, sampleBuffer, hpicture, -, hpts⟩ := hown 1 _ _ rfl
  cases hpicture
  exact absurd hpts (by decide)

end FrameTimes

end Sogx
