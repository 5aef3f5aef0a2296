import Sogx.Lib.Bytes

/-!
The frames of a WebSocket stream, and the messages that they carry.

* `decode_bytes`, `decodeAll_bytes`: a frame, and a stream of frames, is read back
  from its bytes.
* `mask_mask`: a mask is its own inverse.
* `Begun` is what a receiver keeps between two frames. `after` is its step,
  `events` are the messages that a frame completes, and `Legal` says which frame
  may come next.
* `Delivers` are the frames that bring just these messages. `delivers_pieces`: a
  message that is sent in pieces arrives as one message.
-/

namespace Sogx.Lib.Rfc6455

/-! ### Frames -/

/-- How many bits the length of a payload takes. -/
inductive LengthForm where
  | seven | sixteen | sixtyFour
deriving DecidableEq, Repr

/-- The lengths that a form can write. -/
def LengthForm.Fits : LengthForm → Nat → Prop
  | .seven, n => n ≤ 125
  | .sixteen, n => n < 2 ^ 16
  | .sixtyFour, n => n < 2 ^ 64

instance (form : LengthForm) (n : Nat) : Decidable (form.Fits n) := by
  cases form <;> unfold LengthForm.Fits <;> infer_instance

/-- A frame, with its payload as it is before the mask. -/
structure Frame where
  fin : Bool
  rsv : BitVec 3
  opcode : BitVec 4
  key : Option (BitVec 32)
  form : LengthForm
  payload : List Byte
  fits : form.Fits payload.length
deriving DecidableEq

/-- The byte of the key for position `m` of a payload. -/
def keyByte (key : BitVec 32) (m : Nat) : Byte := (key >>> (8 * (3 - m % 4))).setWidth 8

def maskFrom (key : BitVec 32) : Nat → List Byte → List Byte
  | _, [] => []
  | m, b :: bs => (b ^^^ keyByte key m) :: maskFrom key (m + 1) bs

def mask (key : BitVec 32) (data : List Byte) : List Byte := maskFrom key 0 data

/-- The length and what says whether there is a key. -/
def lengthField (masked : Bool) (form : LengthForm) (n : Nat) : List Byte :=
  match form with
  | .seven => [BitVec.ofBool masked ++ BitVec.ofNat 7 n]
  | .sixteen => (BitVec.ofBool masked ++ 126#7) :: toBE 2 n
  | .sixtyFour => (BitVec.ofBool masked ++ 127#7) :: toBE 8 n

def keyField : Option (BitVec 32) → List Byte
  | none => []
  | some key => toBE 4 key.toNat

namespace Frame

def first (f : Frame) : Byte := BitVec.ofBool f.fin ++ f.rsv ++ f.opcode

def header (f : Frame) : List Byte :=
  f.first :: (lengthField f.key.isSome f.form f.payload.length ++ keyField f.key)

/-- The payload as it is on the wire. -/
def masked (f : Frame) : List Byte :=
  match f.key with
  | none => f.payload
  | some key => mask key f.payload

def bytes (f : Frame) : List Byte := f.header ++ f.masked

end Frame

/-! ### Masks -/

@[simp] theorem length_maskFrom (key : BitVec 32) (m : Nat) (data : List Byte) :
    (maskFrom key m data).length = data.length := by
  induction data generalizing m with
  | nil => rfl
  | cons b bs ih => simp [maskFrom, ih]

@[simp] theorem length_mask (key : BitVec 32) (data : List Byte) : (mask key data).length = data.length :=
  length_maskFrom key 0 data

/-- Masking twice gives the data back, from any byte of the key on. -/
theorem maskFrom_maskFrom (key : BitVec 32) (m : Nat) (data : List Byte) :
    maskFrom key m (maskFrom key m data) = data := by
  induction data generalizing m with
  | nil => rfl
  | cons b bs ih => rw [maskFrom, maskFrom, ih, BitVec.xor_assoc, BitVec.xor_self, BitVec.xor_zero]

/-- Masking is its own inverse. -/
theorem mask_mask (key : BitVec 32) (data : List Byte) : mask key (mask key data) = data :=
  maskFrom_maskFrom key 0 data

theorem maskFrom_zero (m : Nat) (data : List Byte) : maskFrom 0 m data = data := by
  induction data generalizing m with
  | nil => rfl
  | cons b bs ih =>
    have hbyte : keyByte 0 m = 0#8 := by simp [keyByte]
    rw [maskFrom, hbyte, ih, BitVec.xor_zero]

theorem mask_zero (data : List Byte) : mask 0 data = data := maskFrom_zero 0 data

@[simp] theorem Frame.length_masked (f : Frame) : f.masked.length = f.payload.length := by
  unfold Frame.masked
  cases f.key with
  | none => rfl
  | some key => exact length_mask key f.payload

theorem length_lengthField (masked : Bool) (form : LengthForm) (n : Nat) :
    (lengthField masked form n).length =
      match form with | .seven => 1 | .sixteen => 3 | .sixtyFour => 9 := by
  cases form <;> simp [lengthField]

theorem length_keyField (key : Option (BitVec 32)) :
    (keyField key).length = if key.isSome = true then 4 else 0 := by
  cases key <;> simp [keyField]

/-- A header is the first byte and the two fields. -/
theorem Frame.length_header (f : Frame) :
    f.header.length = 1 + (lengthField f.key.isSome f.form f.payload.length).length +
      (keyField f.key).length := by
  simp only [Frame.header, List.length_cons, List.length_append]
  omega

/-- A header has at most 14 bytes. -/
theorem Frame.length_header_le (f : Frame) : f.header.length ≤ 14 := by
  rw [f.length_header, length_lengthField, length_keyField]
  cases f.form <;> cases f.key <;> simp

theorem Frame.length_header_pos (f : Frame) : 0 < f.header.length := Nat.succ_pos _

theorem Frame.length_bytes (f : Frame) : f.bytes.length = f.header.length + f.payload.length := by
  rw [Frame.bytes, List.length_append, f.length_masked]

/-- The wire's payload under the key again is the payload. -/
theorem Frame.unmasked (f : Frame) :
    (match f.key with | none => f.masked | some key => mask key f.masked) = f.payload := by
  unfold Frame.masked
  cases f.key with
  | none => rfl
  | some key => exact mask_mask key f.payload

/-! ### Reading a frame -/

/-- The length after the second byte, and the bytes behind it. -/
def readLength (second : Byte) (rest : List Byte) : Option (LengthForm × Nat × List Byte) :=
  let n := (second.setWidth 7).toNat
  if n = 126 then
    if 2 ≤ rest.length then some (.sixteen, ofBE (rest.take 2), rest.drop 2) else none
  else if n = 127 then
    if 8 ≤ rest.length then some (.sixtyFour, ofBE (rest.take 8), rest.drop 8) else none
  else some (.seven, n, rest)

def readKey (masked : Bool) (rest : List Byte) : Option (Option (BitVec 32) × List Byte) :=
  if masked = true then
    if 4 ≤ rest.length then some (some (BitVec.ofNat 32 (ofBE (rest.take 4))), rest.drop 4) else none
  else some (none, rest)

/-- The frame in front, and what follows it. -/
def decode : List Byte → Option (Frame × List Byte)
  | first :: second :: rest => do
    let (form, n, rest) ← readLength second rest
    let (key, rest) ← readKey second.msb rest
    let data := rest.take n
    let payload := match key with
      | none => data
      | some key => mask key data
    if h : data.length = n ∧ form.Fits payload.length then
      some (⟨first.msb, (first >>> 4).setWidth 3, first.setWidth 4, key, form, payload, h.2⟩,
        rest.drop n)
    else none
  | _ => none

/-- A small length stands in the second byte itself. -/
theorem second_seven (masked : Bool) {n : Nat} (h : n ≤ 125) :
    ((BitVec.ofBool masked ++ BitVec.ofNat 7 n : Byte).setWidth 7).toNat = n := by
  have hlt : n < 2 ^ 7 := by omega
  rw [BitVec.toNat_setWidth, BitVec.toNat_append, BitVec.toNat_ofNat, Nat.mod_eq_of_lt hlt,
    Nat.shiftLeft_eq, Nat.mul_comm, ← Nat.two_pow_add_eq_or_of_lt hlt, Nat.mul_add_mod,
    Nat.mod_eq_of_lt hlt]

theorem second_msb (masked : Bool) (x : BitVec 7) : (BitVec.ofBool masked ++ x : Byte).msb = masked := by
  revert masked x
  decide

theorem lengthField_cons (masked : Bool) (form : LengthForm) (n : Nat) :
    ∃ second more, lengthField masked form n = second :: more ∧ second.msb = masked := by
  cases form with
  | seven => exact ⟨_, _, rfl, second_msb masked _⟩
  | sixteen => exact ⟨_, _, rfl, second_msb masked _⟩
  | sixtyFour => exact ⟨_, _, rfl, second_msb masked _⟩

/-- A length is read in the form that it was written in. -/
theorem readLength_lengthField {masked : Bool} {form : LengthForm} {n : Nat} {second : Byte}
    {more : List Byte} (hfield : lengthField masked form n = second :: more) (h : form.Fits n)
    (rest : List Byte) : readLength second (more ++ rest) = some (form, n, rest) := by
  cases form with
  | seven =>
    obtain ⟨rfl, rfl⟩ := List.cons.inj hfield
    have hn := second_seven masked h
    have h126 : n ≠ 126 := by
      rintro rfl
      exact absurd h (by decide)
    have h127 : n ≠ 127 := by
      rintro rfl
      exact absurd h (by decide)
    simp only [readLength, hn, if_neg h126, if_neg h127, List.nil_append]
  | sixteen =>
    obtain ⟨rfl, rfl⟩ := List.cons.inj hfield
    have hn : ((BitVec.ofBool masked ++ 126#7 : Byte).setWidth 7).toNat = 126 := by
      cases masked <;> rfl
    have hlt : n < 256 ^ 2 := h
    simp [readLength, hn, ofBE_toBE_of_lt hlt]
  | sixtyFour =>
    obtain ⟨rfl, rfl⟩ := List.cons.inj hfield
    have hn : ((BitVec.ofBool masked ++ 127#7 : Byte).setWidth 7).toNat = 127 := by
      cases masked <;> rfl
    have hlt : n < 256 ^ 8 := h
    simp [readLength, hn, ofBE_toBE_of_lt hlt]

/-- A key is read where there is one. -/
theorem readKey_keyField (key : Option (BitVec 32)) (rest : List Byte) :
    readKey key.isSome (keyField key ++ rest) = some (key, rest) := by
  cases key with
  | none => rfl
  | some key =>
    have hlt : key.toNat < 256 ^ 4 := key.isLt
    simp [readKey, keyField, ofBE_toBE_of_lt hlt]

/-- The first byte consists of the final bit, the reserved bits and the opcode. -/
theorem first_fields (fin : Bool) (rsv : BitVec 3) (opcode : BitVec 4) :
    (BitVec.ofBool fin ++ rsv ++ opcode : Byte).msb = fin ∧
      ((BitVec.ofBool fin ++ rsv ++ opcode : Byte) >>> 4).setWidth 3 = rsv ∧
      (BitVec.ofBool fin ++ rsv ++ opcode : Byte).setWidth 4 = opcode := by
  revert fin rsv opcode
  decide

/-- A frame is decoded from its bytes, with anything behind them. -/
theorem decode_bytes (f : Frame) (rest : List Byte) : decode (f.bytes ++ rest) = some (f, rest) := by
  obtain ⟨second, more, hfield, hmsb⟩ := lengthField_cons f.key.isSome f.form f.payload.length
  have hlength := readLength_lengthField hfield f.fits (keyField f.key ++ (f.masked ++ rest))
  have hkey := readKey_keyField f.key (f.masked ++ rest)
  have htake : (f.masked ++ rest).take f.payload.length = f.masked := by
    rw [← f.length_masked, List.take_left]
  have hdrop : (f.masked ++ rest).drop f.payload.length = rest := by
    rw [← f.length_masked, List.drop_left]
  obtain ⟨hfin, hrsv, hopcode⟩ := first_fields f.fin f.rsv f.opcode
  have hbytes : f.bytes ++ rest = f.first :: second :: (more ++ (keyField f.key ++ (f.masked ++ rest))) := by
    simp [Frame.bytes, Frame.header, hfield]
  rw [hbytes, decode, hlength]
  simp only [Option.bind_eq_bind, Option.bind_some, hmsb, hkey, htake, hdrop]
  have hpayload := f.unmasked
  rw [dif_pos ⟨f.length_masked, hpayload ▸ f.fits⟩]
  unfold Frame.first
  simp only [hfin, hrsv, hopcode, hpayload]

/-- A stream of whole frames. -/
def decodeAll : Nat → List Byte → Option (List Frame)
  | _, [] => some []
  | 0, _ => none
  | fuel + 1, bytes => do
    let (f, rest) ← decode bytes
    let fs ← decodeAll fuel rest
    some (f :: fs)

/-- The frames of a stream. -/
def frames (bytes : List Byte) : Option (List Frame) := decodeAll bytes.length bytes

theorem Frame.bytes_ne_nil (f : Frame) : f.bytes ≠ [] := List.cons_ne_nil _ _

/-- Frames that stand one behind the other are decoded one after another. -/
theorem decodeAll_bytes {fs : List Frame} {fuel : Nat} (h : fs.length ≤ fuel) :
    decodeAll fuel (fs.flatMap Frame.bytes) = some fs := by
  induction fs generalizing fuel with
  | nil => cases fuel <;> rfl
  | cons f fs ih =>
    cases fuel with
    | zero => exact absurd h (Nat.not_succ_le_zero _)
    | succ fuel =>
      have hrest := ih (Nat.le_of_succ_le_succ h)
      obtain ⟨b, bs, hcons⟩ := List.exists_cons_of_ne_nil
        (show (f :: fs).flatMap Frame.bytes ≠ [] by simp [f.bytes_ne_nil])
      rw [hcons, decodeAll, ← hcons, List.flatMap_cons, decode_bytes]
      · simp [hrest]
      · simp

theorem length_le_length_bytes (fs : List Frame) : fs.length ≤ (fs.flatMap Frame.bytes).length := by
  induction fs with
  | nil => simp
  | cons f fs ih =>
    have hpos := List.length_pos_iff.mpr f.bytes_ne_nil
    rw [List.length_cons, List.flatMap_cons, List.length_append]
    omega

/-- A stream of whole frames is decoded as them. -/
theorem frames_bytes (fs : List Frame) : frames (fs.flatMap Frame.bytes) = some fs :=
  decodeAll_bytes (length_le_length_bytes fs)

/-! ### Messages -/

inductive Event where
  | message (opcode : BitVec 4) (payload : List Byte)
  | control (opcode : BitVec 4) (payload : List Byte)
deriving DecidableEq, Repr

/-- The message that has begun, if one has: its opcode, and what came of it. -/
abbrev Begun := Option (BitVec 4 × List Byte)

def Frame.isControl (f : Frame) : Bool := f.opcode.msb

def after (b : Begun) (f : Frame) : Begun :=
  if f.isControl = true then b
  else if f.fin = true then none
  else match b with
    | none => some (f.opcode, f.payload)
    | some (opcode, data) => some (opcode, data ++ f.payload)

def events (b : Begun) (f : Frame) : List Event :=
  if f.isControl = true then [.control f.opcode f.payload]
  else if f.fin = true then
    match b with
    | none => [.message f.opcode f.payload]
    | some (opcode, data) => [.message opcode (data ++ f.payload)]
  else []

/-- The frame that may come next: a whole control frame, the first of a message, or
the next of the one that has begun. -/
structure Legal (b : Begun) (f : Frame) : Prop where
  rsv : f.rsv = 0
  control : f.isControl = true → f.fin = true ∧ f.payload.length ≤ 125 ∧ f.opcode ∈ [8#4, 9#4, 10#4]
  first : f.isControl = false → b = none → f.opcode ∈ [1#4, 2#4]
  next : f.isControl = false → b ≠ none → f.opcode = 0

def afterAll (b : Begun) (fs : List Frame) : Begun := fs.foldl after b

def eventsAll : Begun → List Frame → List Event
  | _, [] => []
  | b, f :: fs => events b f ++ eventsAll (after b f) fs

def LegalAll : Begun → List Frame → Prop
  | _, [] => True
  | b, f :: fs => Legal b f ∧ LegalAll (after b f) fs

@[simp] theorem afterAll_cons (b : Begun) (f : Frame) (fs : List Frame) :
    afterAll b (f :: fs) = afterAll (after b f) fs := rfl

theorem afterAll_append (b : Begun) (fs gs : List Frame) :
    afterAll b (fs ++ gs) = afterAll (afterAll b fs) gs := List.foldl_append

/-- What frames say is what the first of them say, and then the others in the state behind
these. -/
theorem eventsAll_append (b : Begun) (fs gs : List Frame) :
    eventsAll b (fs ++ gs) = eventsAll b fs ++ eventsAll (afterAll b fs) gs := by
  induction fs generalizing b with
  | nil => rfl
  | cons f fs ih => simp [eventsAll, ih]

/-- Frames are legal if the first ones are, and the others are in the state behind these. -/
theorem legalAll_append (b : Begun) (fs gs : List Frame) :
    LegalAll b (fs ++ gs) ↔ LegalAll b fs ∧ LegalAll (afterAll b fs) gs := by
  induction fs generalizing b with
  | nil => simp [LegalAll, afterAll]
  | cons f fs ih => simp [LegalAll, ih, and_assoc]

/-- A control frame among others is one of their events. -/
theorem control_mem_eventsAll {b : Begun} {f : Frame} {fs : List Frame} (hmem : f ∈ fs)
    (hcontrol : f.isControl = true) : .control f.opcode f.payload ∈ eventsAll b fs := by
  induction fs generalizing b with
  | nil => cases hmem
  | cons g fs ih =>
    rw [eventsAll, List.mem_append]
    rcases List.mem_cons.mp hmem with rfl | hrest
    · left
      simp [events, hcontrol]
    · exact .inr (ih hrest)

/-- Legal frames that begin and end between two messages, and what they bring. -/
structure Delivers (fs : List Frame) (es : List Event) : Prop where
  legal : LegalAll none fs
  after : afterAll none fs = none
  events : eventsAll none fs = es

theorem delivers_nil : Delivers [] [] := ⟨trivial, rfl, rfl⟩

theorem Delivers.append {fs gs : List Frame} {es ds : List Event} (h : Delivers fs es)
    (h' : Delivers gs ds) : Delivers (fs ++ gs) (es ++ ds) where
  legal := by
    rw [legalAll_append, h.after]
    exact ⟨h.legal, h'.legal⟩
  after := by rw [afterAll_append, h.after, h'.after]
  events := by rw [eventsAll_append, h.after, h.events, h'.events]

/-- A frame with this opcode, final or not. -/
structure Piece (opcode : BitVec 4) (fin : Bool) (f : Frame) : Prop where
  opcode : f.opcode = opcode
  fin : f.fin = fin
  rsv : f.rsv = 0

theorem Piece.not_control {opcode : BitVec 4} {fin : Bool} {f : Frame} (h : Piece opcode fin f)
    (hmem : opcode ∈ [0#4, 1#4, 2#4]) : f.isControl = false := by
  rw [Frame.isControl, h.opcode]
  have hall : ∀ c : BitVec 4, c ∈ [0#4, 1#4, 2#4] → c.msb = false := by decide
  exact hall opcode hmem

/-- A control frame, and what it brings. -/
theorem delivers_control {opcode : BitVec 4} {f : Frame} (hmem : opcode ∈ [8#4, 9#4, 10#4])
    (h : Piece opcode true f) (hshort : f.payload.length ≤ 125) :
    Delivers [f] [.control opcode f.payload] := by
  have hcontrol : f.isControl = true := by
    rw [Frame.isControl, h.opcode]
    have hall : ∀ c : BitVec 4, c ∈ [8#4, 9#4, 10#4] → c.msb = true := by decide
    exact hall opcode hmem
  refine ⟨⟨⟨h.rsv, fun _ => ⟨h.fin, hshort, h.opcode ▸ hmem⟩, ?_, ?_⟩, trivial⟩, ?_, ?_⟩
  · exact fun hc => absurd hcontrol (by simp [hc])
  · exact fun _ hne => absurd rfl hne
  · simp [afterAll, after, hcontrol]
  · simp [eventsAll, events, hcontrol, h.opcode]

/-- A message in one frame. -/
theorem delivers_one {opcode : BitVec 4} {f : Frame} (hmem : opcode ∈ [1#4, 2#4])
    (h : Piece opcode true f) : Delivers [f] [.message opcode f.payload] := by
  have hcontrol := h.not_control (List.mem_cons_of_mem _ hmem)
  refine ⟨⟨⟨h.rsv, ?_, ?_, ?_⟩, trivial⟩, ?_, ?_⟩
  · exact fun hc => absurd hc (by simp [hcontrol])
  · exact fun _ _ => h.opcode ▸ hmem
  · exact fun _ hne => absurd rfl hne
  · simp [afterAll, after, hcontrol, h.fin]
  · simp [eventsAll, events, hcontrol, h.fin, h.opcode]

/-- The frames in the middle of a message add their payloads. -/
theorem continued (opcode : BitVec 4) (data : List Byte) {fs : List Frame}
    (h : ∀ f ∈ fs, Piece 0 false f) :
    LegalAll (some (opcode, data)) fs ∧
      afterAll (some (opcode, data)) fs = some (opcode, data ++ fs.flatMap Frame.payload) ∧
      eventsAll (some (opcode, data)) fs = [] := by
  induction fs generalizing data with
  | nil => simp [LegalAll, afterAll, eventsAll]
  | cons f fs ih =>
    have hf := h f List.mem_cons_self
    have hcontrol := hf.not_control List.mem_cons_self
    have hafter : after (some (opcode, data)) f = some (opcode, data ++ f.payload) := by
      simp [after, hcontrol, hf.fin]
    obtain ⟨hlegal, hrest, hevents⟩ := ih (data ++ f.payload) fun g hg =>
      h g (List.mem_cons_of_mem f hg)
    refine ⟨⟨⟨hf.rsv, ?_, ?_, ?_⟩, ?_⟩, ?_, ?_⟩
    · exact fun hc => absurd hc (by simp [hcontrol])
    · exact fun _ hnone => absurd hnone (Option.some_ne_none _)
    · exact fun _ _ => hf.opcode
    · rwa [hafter]
    · rw [afterAll_cons, hafter, hrest, List.flatMap_cons, List.append_assoc]
    · rw [eventsAll, hafter, hevents]
      simp [events, hcontrol, hf.fin]

/-- A message in several frames. -/
theorem delivers_pieces {opcode : BitVec 4} {f g : Frame} {fs : List Frame}
    (hmem : opcode ∈ [1#4, 2#4]) (hf : Piece opcode false f) (hfs : ∀ f ∈ fs, Piece 0 false f)
    (hg : Piece 0 true g) :
    Delivers (f :: fs ++ [g])
      [.message opcode (f.payload ++ fs.flatMap Frame.payload ++ g.payload)] := by
  have hcontrol := hf.not_control (List.mem_cons_of_mem _ hmem)
  have hcontrol' := hg.not_control List.mem_cons_self
  have hafter : after none f = some (opcode, f.payload) := by
    simp [after, hcontrol, hf.fin, hf.opcode]
  have hnone : events none f = [] := by simp [events, hcontrol, hf.fin]
  obtain ⟨hlegal, hrest, hevents⟩ := continued opcode f.payload hfs
  have hfirst : Legal none f := by
    refine ⟨hf.rsv, ?_, ?_, ?_⟩
    · exact fun hc => absurd hc (by simp [hcontrol])
    · exact fun _ _ => hf.opcode ▸ hmem
    · exact fun _ hne => absurd rfl hne
  have hlast : ∀ b, b ≠ none → Legal b g := by
    intro b hb
    refine ⟨hg.rsv, ?_, ?_, ?_⟩
    · exact fun hc => absurd hc (by simp [hcontrol'])
    · exact fun _ hnone => absurd hnone hb
    · exact fun _ _ => hg.opcode
  constructor
  · rw [List.cons_append, LegalAll, hafter, legalAll_append, hrest]
    exact ⟨hfirst, hlegal, hlast _ (Option.some_ne_none _), trivial⟩
  · rw [List.cons_append, afterAll_cons, hafter, afterAll_append, hrest]
    simp [afterAll, after, hcontrol', hg.fin]
  · rw [List.cons_append, eventsAll, hafter, hnone, eventsAll_append, hevents, hrest]
    simp [eventsAll, events, hcontrol', hg.fin]

end Sogx.Lib.Rfc6455
