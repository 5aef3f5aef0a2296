import Mathlib.Data.List.Basic

/-!
Buffers of a fixed length that are written and read in place.

* `write buf o xs` puts `xs` over what is at `o`. Writes that meet are one write, in
  order (`write_append`) or not (`write_gap`), and only their own place changes
  (`take_write`, `drop_write`).
* `Holds buf o xs` says that `xs` is at `o`; what holds is read (`read_of_holds`), and
  what was written holds (`holds_write`).
-/

namespace Sogx.Lib.Buffer

variable {α : Type}

def write (buf : List α) (o : Nat) (xs : List α) : List α :=
  buf.take o ++ (xs ++ buf.drop (o + xs.length))

/-- The `n` elements at `o`, if they are all in the buffer. -/
def read (buf : List α) (o n : Nat) : Option (List α) :=
  if o + n ≤ buf.length then some ((buf.drop o).take n) else none

def Holds (buf : List α) (o : Nat) (xs : List α) : Prop := xs <+: buf.drop o

variable {buf xs ys : List α} {o : Nat}

@[simp] theorem write_nil (buf : List α) (o : Nat) : write buf o [] = buf := by
  simp [write]

theorem length_take_of_fits (h : o + xs.length ≤ buf.length) : (buf.take o).length = o :=
  List.length_take_of_le (Nat.le_trans (Nat.le_add_right _ _) h)

theorem length_write (h : o + xs.length ≤ buf.length) : (write buf o xs).length = buf.length := by
  rw [write, List.length_append, length_take_of_fits h, List.length_append, List.length_drop, ← Nat.add_assoc,
    Nat.add_sub_of_le h]

theorem take_write (h : o + xs.length ≤ buf.length) : (write buf o xs).take o = buf.take o :=
  List.take_left' (length_take_of_fits h)

theorem drop_write_start (h : o + xs.length ≤ buf.length) :
    (write buf o xs).drop o = xs ++ buf.drop (o + xs.length) :=
  List.drop_left' (length_take_of_fits h)

theorem drop_write (h : o + xs.length ≤ buf.length) :
    (write buf o xs).drop (o + xs.length) = buf.drop (o + xs.length) := by
  rw [← List.drop_drop, drop_write_start h, List.drop_left]

/-- What was written can be read in its place. -/
theorem holds_write (h : o + xs.length ≤ buf.length) : Holds (write buf o xs) o xs :=
  ⟨_, (drop_write_start h).symm⟩

/-- One piece written behind another is one piece. -/
theorem write_append (h : o + xs.length ≤ buf.length) :
    write (write buf o xs) (o + xs.length) ys = write buf o (xs ++ ys) := by
  have htake : (write buf o xs).take (o + xs.length) = buf.take o ++ xs := by
    rw [List.take_add, take_write h, drop_write_start h, List.take_left]
  have hdrop : (write buf o xs).drop (o + xs.length + ys.length) = buf.drop (o + (xs ++ ys).length) := by
    rw [← List.drop_drop, drop_write h, List.drop_drop, List.length_append, Nat.add_assoc]
  rw [write, htake, hdrop, write]
  simp only [List.append_assoc]

/-- A place that was left open is filled in later. -/
theorem write_gap (h : o + xs.length + ys.length ≤ buf.length) :
    write (write buf (o + xs.length) ys) o xs = write buf o (xs ++ ys) := by
  have htake : (write buf (o + xs.length) ys).take o = buf.take o := by
    have hfirst := congrArg (List.take o) (take_write h)
    rwa [List.take_take, List.take_take, Nat.min_eq_left (Nat.le_add_right _ _)] at hfirst
  have hdrop : (write buf (o + xs.length) ys).drop (o + xs.length) = ys ++ buf.drop (o + (xs ++ ys).length) := by
    rw [drop_write_start h, List.length_append, Nat.add_assoc]
  rw [write, htake, hdrop, write]
  simp only [List.append_assoc]

theorem Holds.left (h : Holds buf o (xs ++ ys)) : Holds buf o xs :=
  (List.prefix_append xs ys).trans h

theorem Holds.right (h : Holds buf o (xs ++ ys)) : Holds buf (o + xs.length) ys := by
  obtain ⟨rest, hrest⟩ := h
  refine ⟨rest, ?_⟩
  rw [← List.drop_drop, ← hrest, List.append_assoc, List.drop_left]

/-- What a buffer holds is read. -/
theorem read_of_holds (h : Holds buf o xs) (hle : o + xs.length ≤ buf.length) :
    read buf o xs.length = some xs := by
  rw [read, if_pos hle]
  exact congrArg some (List.prefix_iff_eq_take.mp h).symm

/-- What is read is as long as was asked for, and ends in the buffer. -/
theorem read_length {n : Nat} (h : read buf o n = some xs) : xs.length = n ∧ o + n ≤ buf.length := by
  rw [read] at h
  split at h
  · next hle =>
      cases h
      refine ⟨List.length_take_of_le ?_, hle⟩
      rw [List.length_drop]
      exact Nat.le_sub_of_add_le' hle
  · cases h

end Sogx.Lib.Buffer
