import Sogx.Lib.Bitstream

/-!
Programs that read an H.264 bit stream, as data: which element comes next may
depend on the values read so far.

`eval` gives a program its meaning on a stream of bits. A concrete reader runs
it with its own operations, each of which may need fuel; when its operations
follow the stream (`Follows`), the whole program does.

* `eval_of_run`, `run_of_eval`: runs and meaning agree.
* `returns_iff`: a program comes to its end exactly when one of the next 32
  bits is set wherever it meets an Exp-Golomb code (`CodesAhead`).
-/

namespace Sogx.Lib.Bitstream

/-- Where a reader stands: how many bits of the byte begun are left, and the
bits from here on. -/
structure Cursor where
  left : Nat
  bits : Bits

namespace Cursor

/-- The bits left of the byte after one more bit. -/
def stepLeft (left : Nat) : Nat := if left = 0 then 7 else left - 1

/-- Behind the next `n` bits. -/
def after (c : Cursor) (n : Nat) : Cursor := ⟨stepLeft^[n] c.left, c.bits.drop n⟩

/-- The next ue(v), and where it ends. -/
def ue (c : Cursor) : Option (Nat × Cursor) :=
  (readUE c.bits).map fun r => (r.1, ⟨stepLeft^[2 * ueZeros r.1 + 1] c.left, r.2⟩)

theorem after_after (c : Cursor) (m n : Nat) : (c.after m).after n = c.after (m + n) := by
  rw [after, after, after, Stream'.drop_drop, ← Function.iterate_add_apply, Nat.add_comm n m]

theorem after_succ (c : Cursor) (n : Nat) : c.after (n + 1) = (c.after 1).after n := by
  rw [after_after, Nat.add_comm]

/-- An Exp-Golomb code is read if and only if it is there and its number is below 2^32 - 1,
and the cursor is then behind all of it. -/
theorem ue_eq_some {c c' : Cursor} {v : Nat} :
    c.ue = some (v, c') ↔
      v + 1 < 2 ^ 32 ∧ c.bits = ueBits v ++ₛ c'.bits ∧ c' = c.after (2 * ueZeros v + 1) := by
  have hdrop : ∀ t, (ueBits v ++ₛ t).drop (2 * ueZeros v + 1) = t :=
    fun t => drop_append_of_length t (length_ueBits v)
  constructor
  · intro h
    obtain ⟨⟨u, t⟩, hread, hpair⟩ := Option.map_eq_some_iff.mp h
    obtain ⟨rfl, rfl⟩ := Prod.mk.inj hpair
    obtain ⟨hlt, hbits⟩ := readUE_eq_some.mp hread
    refine ⟨hlt, hbits, ?_⟩
    rw [after, hbits, hdrop]
  · rintro ⟨hlt, hbits, rfl⟩
    apply Option.map_eq_some_iff.mpr
    exact ⟨(v, (c.after (2 * ueZeros v + 1)).bits), readUE_eq_some.mpr ⟨hlt, hbits⟩, rfl⟩

/-- A code by its parts: the zeros up to the first one, and as many bits behind
it. -/
theorem ue_of_findOne {c : Cursor} {k : Nat} (h : findOne 32 c.bits = some k) :
    c.ue = some (wordOf ((c.after (k + 1)).bits.take k) + (2 ^ k - 1),
      (c.after (k + 1)).after k) := by
  have hword := wordOf_lt ((c.after (k + 1)).bits.take k)
  rw [Stream'.length_take] at hword
  have hlen : k + 1 + k = 2 * k + 1 := by omega
  rw [ue, readUE, h, after_after, hlen]
  simp only [Option.map_some]
  change some (_, Cursor.mk (stepLeft^[2 * ueZeros (wordOf ((c.after (k + 1)).bits.take k) +
    (2 ^ k - 1)) + 1] c.left) _) = _
  rw [ueZeros_word hword, Stream'.drop_drop, hlen]
  rfl

/-- There is an Exp-Golomb code where one of the next 32 bits is set. -/
theorem ue_isSome_iff {c : Cursor} : c.ue.isSome ↔ true ∈ c.bits.take 32 := by
  rw [ue, Option.isSome_map, readUE_isSome_iff]

/-- Behind `p` bits of whole bytes, with `s` to come. -/
def behind (p : Nat) (s : Bits) : Cursor := ⟨(8 - p % 8) % 8, s⟩

theorem stepLeft_behind (p : Nat) : stepLeft ((8 - p % 8) % 8) = (8 - (p + 1) % 8) % 8 := by
  unfold stepLeft
  split
  · omega
  · omega

theorem after_behind (p n : Nat) (s : Bits) :
    (behind p s).after n = behind (p + n) (s.drop n) := by
  have hleft : ∀ q, stepLeft^[n] ((8 - q % 8) % 8) = (8 - (q + n) % 8) % 8 := by
    induction n with
    | zero => exact fun q => rfl
    | succ n ih =>
      intro q
      rw [Function.iterate_succ_apply, stepLeft_behind, ih, Nat.add_assoc, Nat.add_comm 1 n]
  rw [after, behind, hleft, behind]

/-- Behind the bits that stand in front. -/
theorem after_append {n : Nat} (p : Nat) (l : List Bool) (s : Bits) (h : l.length = n) :
    (behind p (l ++ₛ s)).after n = behind (p + l.length) s := by
  rw [after_behind, drop_append_of_length s h, h]

/-- A code that stands in front is read. -/
theorem ue_append {v : Nat} (h : v + 1 < 2 ^ 32) (p : Nat) (s : Bits) :
    (behind p (ueBits v ++ₛ s)).ue = some (v, behind (p + (ueBits v).length) s) := by
  rw [ue_eq_some, after_append p _ s (length_ueBits v)]
  exact ⟨h, rfl, rfl⟩

/-- What was read as a code is one. -/
theorem ue_inv {p v : Nat} {s : Bits} {c : Cursor} (h : (behind p s).ue = some (v, c)) :
    v + 1 < 2 ^ 32 ∧ ∃ t, s = ueBits v ++ₛ t ∧ c = behind (p + (ueBits v).length) t := by
  obtain ⟨hlt, hbits, hc⟩ := ue_eq_some.mp h
  have hs : s = ueBits v ++ₛ c.bits := hbits
  rw [hs, after_append p _ _ (length_ueBits v)] at hc
  exact ⟨hlt, c.bits, hs, hc⟩

end Cursor

/-- A program that reads the elements of a syntax. -/
inductive Program (α : Type) where
  | done (a : α)
  | bit (k : Bool → Program α)
  | word (n : Nat) (k : Nat → Program α)
  | ue (k : Nat → Program α)
  | se (k : Int → Program α)
  | skip (n : Nat) (k : Program α)

namespace Program

variable {α β : Type}

def bind : Program α → (α → Program β) → Program β
  | done a, f => f a
  | bit k, f => bit fun b => (k b).bind f
  | word n k, f => word n fun u => (k u).bind f
  | ue k, f => ue fun u => (k u).bind f
  | se k, f => se fun v => (k v).bind f
  | skip n k, f => skip n (k.bind f)

instance : Monad Program where
  pure := done
  bind := bind

def getBit : Program Bool := bit done

def getWord (n : Nat) : Program Nat := word n done

def getUE : Program Nat := ue done

def getSE : Program Int := se done

def skipBits (n : Nat) : Program Unit := skip n (done ())

/-! ### The meaning of a program -/

section Eval

variable (skip : Nat → Cursor → Cursor)

/-- What a program reads at a cursor, when skipping moves as `skip` says. -/
def eval : Program α → Cursor → Option (α × Cursor)
  | done a, c => some (a, c)
  | bit k, c => eval (k c.bits.head) (c.after 1)
  | word n k, c => eval (k (wordOf (c.bits.take n))) (c.after n)
  | ue k, c => c.ue.bind fun r => eval (k r.1) r.2
  | se k, c => c.ue.bind fun r => eval (k (signed r.1)) r.2
  | .skip n k, c => eval k (skip n c)

/-- Wherever the program meets an Exp-Golomb code, one of the next 32 bits is
set. -/
def CodesAhead : Program α → Cursor → Prop
  | done _, _ => True
  | bit k, c => CodesAhead (k c.bits.head) (c.after 1)
  | word n k, c => CodesAhead (k (wordOf (c.bits.take n))) (c.after n)
  | ue k, c => true ∈ c.bits.take 32 ∧ ∀ u c', c.ue = some (u, c') → CodesAhead (k u) c'
  | se k, c => true ∈ c.bits.take 32 ∧ ∀ u c', c.ue = some (u, c') → CodesAhead (k (signed u)) c'
  | .skip n k, c => CodesAhead k (skip n c)

variable {skip}

/-- A program is evaluated step by step. -/
theorem eval_bind (p : Program α) (f : α → Program β) (c : Cursor) :
    eval skip (p >>= f) c = (eval skip p c).bind fun r => eval skip (f r.1) r.2 := by
  change eval skip (p.bind f) c = _
  induction p generalizing c with
  | done a => rfl
  | bit k ih => exact ih _ _
  | word n k ih => exact ih _ _
  | ue k ih =>
    rw [bind, eval, eval, Option.bind_assoc]
    apply Option.bind_congr
    rintro ⟨u, c'⟩ -
    exact ih u c'
  | se k ih =>
    rw [bind, eval, eval, Option.bind_assoc]
    apply Option.bind_congr
    rintro ⟨u, c'⟩ -
    exact ih (signed u) c'
  | skip n k ih => exact ih _

/-- A program goes on from where its first part ends. -/
theorem eval_bind_of {p : Program α} {c c' : Cursor} {a : α} (h : eval skip p c = some (a, c'))
    (f : α → Program β) : eval skip (p >>= f) c = eval skip (f a) c' := by
  rw [eval_bind, h, Option.bind_some]

@[simp] theorem eval_pure (a : α) (c : Cursor) :
    eval skip (pure a : Program α) c = some (a, c) := rfl

@[simp] theorem eval_getBit (c : Cursor) :
    eval skip getBit c = some (c.bits.head, c.after 1) := rfl

@[simp] theorem eval_getWord (n : Nat) (c : Cursor) :
    eval skip (getWord n) c = some (wordOf (c.bits.take n), c.after n) := rfl

@[simp] theorem eval_getUE (c : Cursor) : eval skip getUE c = c.ue := by
  change c.ue.bind some = c.ue
  cases c.ue with
  | none => rfl
  | some r => rfl

@[simp] theorem eval_getSE (c : Cursor) :
    eval skip getSE c = c.ue.map fun r => (signed r.1, r.2) := by
  change (c.ue.bind fun r => some (signed r.1, r.2)) = _
  cases c.ue with
  | none => rfl
  | some r => rfl

@[simp] theorem eval_skipBits (n : Nat) (c : Cursor) :
    eval skip (skipBits n) c = some ((), skip n c) := rfl

/-! What is written in front is read. -/

theorem eval_getBit_append (p : Nat) (b : Bool) (s : Bits) :
    eval skip getBit (.behind p ([b] ++ₛ s)) = some (b, .behind (p + 1) s) := by
  rw [eval_getBit, Cursor.after_append (n := 1) p [b] s rfl]
  rfl

theorem eval_getWord_append {n v : Nat} (h : v < 2 ^ n) (p : Nat) (s : Bits) :
    eval skip (getWord n) (.behind p (wordBits n v ++ₛ s)) = some (v, .behind (p + n) s) := by
  have hword : (Cursor.behind p (wordBits n v ++ₛ s)).bits.take n = wordBits n v :=
    take_append_of_length s (length_wordBits n v)
  rw [eval_getWord, hword, wordOf_wordBits, Nat.mod_eq_of_lt h,
    Cursor.after_append p _ s (length_wordBits n v), length_wordBits]

theorem eval_getUE_append {v : Nat} (h : v + 1 < 2 ^ 32) (p : Nat) (s : Bits) :
    eval skip getUE (.behind p (ueBits v ++ₛ s)) =
      some (v, .behind (p + (ueBits v).length) s) := by
  rw [eval_getUE, Cursor.ue_append h]

theorem eval_getSE_append {v : Int} (h : codeNum v + 1 < 2 ^ 32) (p : Nat) (s : Bits) :
    eval skip getSE (.behind p (seBits v ++ₛ s)) =
      some (v, .behind (p + (seBits v).length) s) := by
  rw [eval_getSE, seBits, Cursor.ue_append h, Option.map_some, signed_codeNum]

/-! What is read stands in front. -/

/-- A program succeeds if its first part does and the rest does from where that stopped. -/
theorem eval_bind_eq_some {p : Program α} {f : α → Program β} {c : Cursor} {r : β × Cursor} :
    eval skip (p >>= f) c = some r ↔
      ∃ a c', eval skip p c = some (a, c') ∧ eval skip (f a) c' = some r := by
  rw [eval_bind, Option.bind_eq_some_iff]
  exact ⟨fun ⟨⟨a, c'⟩, h⟩ => ⟨a, c', h⟩, fun ⟨a, c', h⟩ => ⟨(a, c'), h⟩⟩

theorem eval_getBit_inv {p : Nat} {s : Bits} {b : Bool} {c : Cursor}
    (h : eval skip getBit (.behind p s) = some (b, c)) :
    ∃ t, s = [b] ++ₛ t ∧ c = .behind (p + 1) t := by
  obtain ⟨rfl, rfl⟩ := Prod.mk.inj (Option.some.inj h)
  refine ⟨s.tail, ?_, Cursor.after_behind p 1 s⟩
  exact (Stream'.eta s).symm

theorem eval_getUE_inv {p v : Nat} {s : Bits} {c : Cursor}
    (h : eval skip getUE (.behind p s) = some (v, c)) :
    v + 1 < 2 ^ 32 ∧ ∃ t, s = ueBits v ++ₛ t ∧ c = .behind (p + (ueBits v).length) t := by
  rw [eval_getUE] at h
  exact Cursor.ue_inv h

theorem eval_getSE_inv {p : Nat} {v : Int} {s : Bits} {c : Cursor}
    (h : eval skip getSE (.behind p s) = some (v, c)) :
    codeNum v + 1 < 2 ^ 32 ∧ ∃ t, s = seBits v ++ₛ t ∧ c = .behind (p + (seBits v).length) t := by
  rw [eval_getSE] at h
  obtain ⟨⟨u, c'⟩, hue, hpair⟩ := Option.map_eq_some_iff.mp h
  obtain ⟨rfl, rfl⟩ := Prod.mk.inj hpair
  rw [seBits, codeNum_signed]
  exact Cursor.ue_inv hue

/-- The codes that a program asks for are ahead if and only if it is evaluated. -/
theorem codesAhead_iff (p : Program α) (c : Cursor) :
    CodesAhead skip p c ↔ (eval skip p c).isSome := by
  induction p generalizing c with
  | done a => exact ⟨fun _ => rfl, fun _ => trivial⟩
  | bit k ih => exact ih _ _
  | word n k ih => exact ih _ _
  | ue k ih =>
    rw [CodesAhead, eval, ← Cursor.ue_isSome_iff]
    cases c.ue with
    | none => simp
    | some r =>
      constructor
      · rintro ⟨-, hrest⟩
        exact (ih _ r.2).mp (hrest r.1 r.2 rfl)
      · intro hrest
        refine ⟨rfl, ?_⟩
        rintro u c' hr
        obtain rfl := Option.some.inj hr
        exact (ih _ c').mpr hrest
  | se k ih =>
    rw [CodesAhead, eval, ← Cursor.ue_isSome_iff]
    cases c.ue with
    | none => simp
    | some r =>
      constructor
      · rintro ⟨-, hrest⟩
        exact (ih _ r.2).mp (hrest r.1 r.2 rfl)
      · intro hrest
        refine ⟨rfl, ?_⟩
        rintro u c' hr
        obtain rfl := Option.some.inj hr
        exact (ih _ c').mpr hrest
  | skip n k ih => exact ih _

end Eval

/-! ### Running a program on a reader -/

/-- The operations of a concrete reader; reading a code takes fuel. -/
structure Reader (σ ε : Type) where
  bit : σ → Bool × σ
  word : Nat → σ → Nat × σ
  ue : Nat → σ → Except ε (Nat × σ)
  se : Nat → σ → Except ε (Int × σ)
  skip : Nat → σ → σ

variable {σ ε : Type}

def run (R : Reader σ ε) (fuel : Nat) : Program α → σ → Except ε (α × σ)
  | done a, s => .ok (a, s)
  | bit k, s => run R fuel (k (R.bit s).1) (R.bit s).2
  | word n k, s => run R fuel (k (R.word n s).1) (R.word n s).2
  | ue k, s => R.ue fuel s >>= fun r => run R fuel (k r.1) r.2
  | se k, s => R.se fuel s >>= fun r => run R fuel (k r.1) r.2
  | skip n k, s => run R fuel k (R.skip n s)

/-- The program comes to its end. -/
def Returns (R : Reader σ ε) (p : Program α) (s : σ) : Prop :=
  ∃ fuel r, run R fuel p s = .ok r

/-- The operations of a reader read the stream that `view` shows, and a code
needs no more fuel than 32. -/
structure Follows (R : Reader σ ε) (view : σ → Cursor) (skip : Nat → Cursor → Cursor) :
    Prop where
  bit : ∀ s, (R.bit s).1 = (view s).bits.head ∧ view (R.bit s).2 = (view s).after 1
  word : ∀ n s, (R.word n s).1 = wordOf ((view s).bits.take n) ∧
    view (R.word n s).2 = (view s).after n
  ue_ok : ∀ fuel s u s', R.ue fuel s = .ok (u, s') → (view s).ue = some (u, view s')
  ue_total : ∀ s, (view s).ue.isSome → ∃ r, R.ue 32 s = .ok r
  se : ∀ fuel s, R.se fuel s = (R.ue fuel s).map fun r => (signed r.1, r.2)
  skip : ∀ n s, view (R.skip n s) = skip n (view s)

section Follows

variable {R : Reader σ ε} {view : σ → Cursor} {skip : Nat → Cursor → Cursor}

/-- What a run reads is what the program means. -/
theorem eval_of_run (h : Follows R view skip) {fuel : Nat} {p : Program α} {s s' : σ} {a : α}
    (hrun : run R fuel p s = .ok (a, s')) : eval skip p (view s) = some (a, view s') := by
  induction p generalizing s with
  | done b =>
    obtain ⟨rfl, rfl⟩ := Prod.mk.inj (Except.ok.inj hrun)
    rfl
  | bit k ih =>
    have hrest := ih _ hrun
    rw [(h.bit s).1, (h.bit s).2] at hrest
    exact hrest
  | word n k ih =>
    have hrest := ih _ hrun
    rw [(h.word n s).1, (h.word n s).2] at hrest
    exact hrest
  | ue k ih =>
    rw [run] at hrun
    cases hue : R.ue fuel s with
    | error e =>
      rw [hue] at hrun
      cases hrun
    | ok r =>
      rw [hue] at hrun
      rw [eval, h.ue_ok fuel s r.1 r.2 hue]
      exact ih r.1 hrun
  | se k ih =>
    rw [run, h.se] at hrun
    cases hue : R.ue fuel s with
    | error e =>
      rw [hue] at hrun
      cases hrun
    | ok r =>
      rw [hue] at hrun
      rw [eval, h.ue_ok fuel s r.1 r.2 hue]
      exact ih (signed r.1) hrun
  | skip n k ih =>
    have hrest := ih hrun
    rw [h.skip] at hrest
    exact hrest

/-- Where the program has a meaning, it runs on fuel 32. -/
theorem run_of_eval (h : Follows R view skip) {p : Program α} {s : σ} {a : α} {c : Cursor}
    (heval : eval skip p (view s) = some (a, c)) : ∃ s', run R 32 p s = .ok (a, s') := by
  induction p generalizing s with
  | done b =>
    obtain ⟨rfl, -⟩ := Prod.mk.inj (Option.some.inj heval)
    exact ⟨s, rfl⟩
  | bit k ih =>
    rw [run]
    apply ih
    rw [(h.bit s).1, (h.bit s).2]
    exact heval
  | word n k ih =>
    rw [run]
    apply ih
    rw [(h.word n s).1, (h.word n s).2]
    exact heval
  | ue k ih =>
    obtain ⟨⟨u, c'⟩, hue, hrest⟩ := Option.bind_eq_some_iff.mp heval
    obtain ⟨⟨u', s'⟩, hread⟩ := h.ue_total s (Option.isSome_of_eq_some hue)
    have hsame := h.ue_ok 32 s u' s' hread
    rw [hue] at hsame
    obtain ⟨rfl, rfl⟩ := Prod.mk.inj (Option.some.inj hsame)
    rw [run, hread]
    exact ih u hrest
  | se k ih =>
    obtain ⟨⟨u, c'⟩, hue, hrest⟩ := Option.bind_eq_some_iff.mp heval
    obtain ⟨⟨u', s'⟩, hread⟩ := h.ue_total s (Option.isSome_of_eq_some hue)
    have hsame := h.ue_ok 32 s u' s' hread
    rw [hue] at hsame
    obtain ⟨rfl, rfl⟩ := Prod.mk.inj (Option.some.inj hsame)
    rw [run, h.se, hread]
    exact ih (signed u) hrest
  | skip n k ih =>
    rw [run]
    apply ih
    rw [h.skip]
    exact heval

/-- A program comes to its end exactly when every code it meets is there. -/
theorem returns_iff (h : Follows R view skip) (p : Program α) (s : σ) :
    Returns R p s ↔ CodesAhead skip p (view s) := by
  rw [codesAhead_iff, Option.isSome_iff_exists]
  constructor
  · rintro ⟨fuel, ⟨a, s'⟩, hrun⟩
    exact ⟨_, eval_of_run h hrun⟩
  · rintro ⟨⟨a, c⟩, heval⟩
    obtain ⟨s', hrun⟩ := run_of_eval h heval
    exact ⟨32, _, hrun⟩

end Follows

/-! ### Programs that only read -/

/-- The program does not skip. -/
def SkipFree : Program α → Prop
  | done _ => True
  | bit k => ∀ b, SkipFree (k b)
  | word _ k => ∀ u, SkipFree (k u)
  | ue k => ∀ u, SkipFree (k u)
  | se k => ∀ v, SkipFree (k v)
  | skip _ _ => False

/-- Two results with the same error, or with the same value and states that are
related. -/
inductive Agree (rel : σ → σ → Prop) : Except ε (α × σ) → Except ε (α × σ) → Prop where
  | error (e : ε) : Agree rel (.error e) (.error e)
  | ok (a : α) {s t : σ} : rel s t → Agree rel (.ok (a, s)) (.ok (a, t))

theorem Agree.values {rel : σ → σ → Prop} {x y : Except ε (α × σ)} (h : Agree rel x y) :
    x.map Prod.fst = y.map Prod.fst := by
  cases h with
  | error e => rfl
  | ok a _ => rfl

/-- Reading from related states gives the same, and leaves related states. -/
structure Bisimulation (R : Reader σ ε) (rel : σ → σ → Prop) : Prop where
  bit : ∀ s t, rel s t → (R.bit s).1 = (R.bit t).1 ∧ rel (R.bit s).2 (R.bit t).2
  word : ∀ n s t, rel s t → (R.word n s).1 = (R.word n t).1 ∧ rel (R.word n s).2 (R.word n t).2
  ue : ∀ fuel s t, rel s t → Agree rel (R.ue fuel s) (R.ue fuel t)
  se : ∀ fuel s t, rel s t → Agree rel (R.se fuel s) (R.se fuel t)

/-- If the single reads agree, programs that skip nothing do, by induction on the
program. -/
theorem Bisimulation.run {R : Reader σ ε} {rel : σ → σ → Prop} (h : Bisimulation R rel)
    {p : Program α} (hp : p.SkipFree) {s t : σ} (hst : rel s t) (fuel : Nat) :
    Agree rel (p.run R fuel s) (p.run R fuel t) := by
  induction p generalizing s t with
  | done a => exact .ok a hst
  | bit k ih =>
    obtain ⟨hvalue, hnext⟩ := h.bit s t hst
    rw [Program.run, Program.run, hvalue]
    exact ih _ (hp _) hnext
  | word n k ih =>
    obtain ⟨hvalue, hnext⟩ := h.word n s t hst
    rw [Program.run, Program.run, hvalue]
    exact ih _ (hp _) hnext
  | ue k ih =>
    rw [Program.run, Program.run]
    have hread := h.ue fuel s t hst
    generalize R.ue fuel s = x at hread ⊢
    generalize R.ue fuel t = y at hread ⊢
    cases hread with
    | error e => exact .error e
    | ok u hnext => exact ih u (hp u) hnext
  | se k ih =>
    rw [Program.run, Program.run]
    have hread := h.se fuel s t hst
    generalize R.se fuel s = x at hread ⊢
    generalize R.se fuel t = y at hread ⊢
    cases hread with
    | error e => exact .error e
    | ok v hnext => exact ih v (hp v) hnext
  | skip n k _ => exact hp.elim

/-- The next bits, one by one. -/
def getBits : Nat → Program (List Bool)
  | 0 => done []
  | n + 1 => bit fun b => (getBits n).bind fun bs => done (b :: bs)

theorem SkipFree.bind {p : Program α} (hp : p.SkipFree) {f : α → Program β}
    (hf : ∀ a, (f a).SkipFree) : (p.bind f).SkipFree := by
  induction p with
  | done a => exact hf a
  | bit k ih => exact fun b => ih b (hp b)
  | word n k ih => exact fun u => ih u (hp u)
  | ue k ih => exact fun u => ih u (hp u)
  | se k ih => exact fun v => ih v (hp v)
  | skip n k _ => exact hp.elim

theorem skipFree_getBits (n : Nat) : (getBits n).SkipFree := by
  induction n with
  | zero => trivial
  | succ n ih => exact fun b => ih.bind fun _ => trivial

/-- Bit by bit the next `n` bits are read. -/
theorem eval_getBits {skip : Nat → Cursor → Cursor} (n : Nat) (c : Cursor) :
    eval skip (getBits n) c = some (c.bits.take n, c.after n) := by
  induction n generalizing c with
  | zero => rfl
  | succ n ih =>
    have hrest := eval_bind_of (ih (c.after 1)) fun bs => done (c.bits.head :: bs)
    change eval skip ((getBits n).bind fun bs => done (c.bits.head :: bs)) (c.after 1) = _
    rw [Cursor.after_succ, Stream'.take_succ]
    exact hrest

end Program

end Sogx.Lib.Bitstream
