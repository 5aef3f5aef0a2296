import Sogx.Native.Recog
import Mathlib.Data.Rat.Floor
import Mathlib.Algebra.Order.Field.Rat
import Mathlib.Tactic.Linarith
import Mathlib.Tactic.NormNum

/-!
`coins.cpp`: the coins on an image, from the circles OpenCV finds on it.

`HoughCircles` is outside the repository. Both paths are functions of the list
of circles it returned; `countGpu` passes them through a filter against
duplicates, `countCpu` takes them all.

* `foldl_push_eq_append_iff`: a filter against what was kept so far keeps
  everything exactly when no two elements clash.
* `countGpu_eq_countCpu_iff`: the two paths agree exactly when no two circles
  have one truncated radius.
-/

namespace Sogx

open Sogx.Lib

/-! ### A filter against what was kept -/

section Filter

variable {α : Type} (clash : α → α → Bool)

/-- Keep `x` unless it clashes with an element kept before. -/
def push (kept : List α) (x : α) : List α :=
  if kept.any (clash · x) then kept else kept ++ [x]

variable {clash}

theorem push_of_clash {kept : List α} {x : α} (h : kept.any (clash · x)) :
    push clash kept x = kept :=
  if_pos h

theorem push_of_not_clash {kept : List α} {x : α} (h : ∀ k ∈ kept, clash k x = false) :
    push clash kept x = kept ++ [x] := by
  apply if_neg
  rw [List.any_eq_true]
  rintro ⟨k, hk, hclash⟩
  rw [h k hk] at hclash
  cases hclash

theorem length_foldl_push_le (kept xs : List α) :
    (xs.foldl (push clash) kept).length ≤ kept.length + xs.length := by
  induction xs generalizing kept with
  | nil => exact Nat.le_refl _
  | cons x xs ih =>
    have hpush : (push clash kept x).length ≤ kept.length + 1 := by
      unfold push
      split
      · exact Nat.le_succ _
      · rw [List.length_append, List.length_singleton]
    rw [List.foldl_cons, List.length_cons]
    exact (ih _).trans (by omega)

/-- The filter keeps everything exactly when nothing clashes with an element in
front of it. -/
theorem foldl_push_eq_append_iff (kept xs : List α) :
    xs.foldl (push clash) kept = kept ++ xs ↔
      (∀ k ∈ kept, ∀ x ∈ xs, clash k x = false) ∧ xs.Pairwise (clash · · = false) := by
  induction xs generalizing kept with
  | nil => simp
  | cons x xs ih =>
    rw [List.foldl_cons, List.pairwise_cons]
    by_cases hclash : kept.any (clash · x)
    · rw [push_of_clash hclash]
      constructor
      · intro h
        -- the result is too short, as `x` was dropped
        have hlen : (xs.foldl (push clash) kept).length ≤ kept.length + xs.length :=
          length_foldl_push_le kept xs
        rw [h, List.length_append, List.length_cons] at hlen
        omega
      · rintro ⟨hkept, -⟩
        obtain ⟨k, hk, hkx⟩ := List.any_eq_true.mp hclash
        rw [hkept k hk x List.mem_cons_self] at hkx
        cases hkx
    · have hfree : ∀ k ∈ kept, clash k x = false := by
        intro k hk
        apply Bool.eq_false_iff.mpr
        intro hkx
        exact hclash (List.any_eq_true.mpr ⟨k, hk, hkx⟩)
      rw [push_of_not_clash hfree, List.append_cons kept x xs, ih]
      constructor
      · rintro ⟨hkept, hpair⟩
        refine ⟨?_, ?_, hpair⟩
        · intro k hk y hy
          rcases List.mem_cons.mp hy with rfl | hy
          · exact hfree k hk
          · exact hkept k (List.mem_append_left _ hk) y hy
        · intro y hy
          exact hkept x (List.mem_append_right _ List.mem_cons_self) y hy
      · rintro ⟨hkept, hx, hpair⟩
        refine ⟨?_, hpair⟩
        intro k hk y hy
        rcases List.mem_append.mp hk with hk | hk
        · exact hkept k hk y (List.mem_cons_of_mem _ hy)
        · rw [List.mem_singleton.mp hk]
          exact hx y hy

end Filter

/-! ### The two paths -/

/-- A `Vec3f` of `HoughCircles`: the centre and the radius. -/
structure Circle where
  x : ℚ
  y : ℚ
  radius : ℚ
deriving DecidableEq, Repr

namespace CoinCounter

/-- The conversion of a `float` to `int`, which truncates. -/
def int (q : ℚ) : Int := q.num.tdiv q.den

/-- `cvRound`: to the nearest integer, and to the even one from halfway. -/
def cvRound (q : ℚ) : Int :=
  let down := ⌊q⌋
  if q - down < 1 / 2 ∨ (q - down = 1 / 2 ∧ down % 2 = 0) then down else down + 1

/-- The coin both paths make of a circle. -/
def coinOf (circle : Circle) : Coin :=
  { center := { x := int circle.x, y := int circle.y }, radius := int circle.radius }

/-- `countCpu` behind `HoughCircles`. `dst` is the blurred image; the rings are
counted in builds `WITH_RINGS`. -/
def countCpu (withRings : Bool) (dst : Point → Byte) (circles : List Circle) : CoinResult :=
  let ringCount := circles.countP fun circle =>
    dst { x := cvRound circle.x, y := cvRound circle.y } > 0
  { coins := circles.map coinOf
    hasRing := if withRings then some (decide (ringCount > 0)) else none }

/-- The test of the inner loop of `countGpu`. -/
def dup (kept coin : Coin) : Bool := kept.center == coin.center || kept.radius == coin.radius

/-- `countGpu` behind `HoughCircles`. `hasRing` keeps what a fresh `CoinResult`
holds. -/
def countGpu (fresh : Option Bool) (circles : List Circle) : CoinResult :=
  { coins := circles.foldl (fun coins circle => push dup coins (coinOf circle)) []
    hasRing := fresh }

/-- `count`, in a build with and without `WITH_OPENCL`. -/
def count (withOpencl withRings : Bool) (fresh : Option Bool) (dst : Point → Byte)
    (circles : List Circle) : CoinResult :=
  if withOpencl then countGpu fresh circles else countCpu withRings dst circles

/-! ### What the filter drops -/

/-- What `HoughCircles` promises about the centres: the minimum distance of 60
between any two. -/
def Apart (circles : List Circle) : Prop :=
  circles.Pairwise fun c d => 60 ^ 2 ≤ (c.x - d.x) ^ 2 + (c.y - d.y) ^ 2

/-- A circle is dropped only if its coin is in the result already. -/
def DropsOnlyRepeats (fresh : Option Bool) (circles : List Circle) : Prop :=
  ∀ seen circle rest, circles = seen ++ circle :: rest →
    (countGpu fresh seen).coins.any (dup · (coinOf circle)) →
      coinOf circle ∈ (countGpu fresh seen).coins

/-- Cutting off the fraction moves a number by less than 1. -/
theorem abs_sub_int_lt (q : ℚ) : |q - int q| < 1 := by
  have hden : (0 : ℚ) < q.den := by exact_mod_cast q.den_pos
  have hsplit : (q.num : ℚ) = q.den * int q + (q.num.tmod q.den : Int) := by
    have h := Int.mul_tdiv_add_tmod q.num q.den
    unfold int
    exact_mod_cast h.symm
  have hrest : |((q.num.tmod q.den : Int) : ℚ)| < q.den := by
    have h := Int.natAbs_tmod q.num q.den
    have hlt : q.num.natAbs % q.den < q.den := Nat.mod_lt _ q.den_pos
    have habs : |q.num.tmod q.den| < (q.den : Int) := by
      rw [Int.abs_eq_natAbs, h, Int.natAbs_natCast]
      exact_mod_cast hlt
    exact_mod_cast habs
  have hq : q - int q = (q.num.tmod q.den : Int) / q.den := by
    rw [eq_div_iff hden.ne', sub_mul, Rat.mul_den_eq_num, hsplit]
    ring
  rw [hq, abs_div, abs_of_pos hden, div_lt_one hden]
  exact hrest

/-- Numbers with one truncation are less than 2 from each other. -/
theorem sq_sub_lt {a b : ℚ} (h : int a = int b) : (a - b) ^ 2 < 4 := by
  have ha := abs_lt.mp (abs_sub_int_lt a)
  have hb := abs_lt.mp (abs_sub_int_lt b)
  rw [h] at ha
  have hlt : |a - b| < |(2 : ℚ)| := by
    rw [abs_of_pos (by norm_num : (0 : ℚ) < 2)]
    exact abs_lt.mpr ⟨by linarith [ha.1, hb.2], by linarith [ha.2, hb.1]⟩
  calc (a - b) ^ 2 < 2 ^ 2 := sq_lt_sq.mpr hlt
    _ = 4 := by norm_num

/-- Circles that are apart have coins with different centres. -/
theorem center_ne {c d : Circle} (h : 60 ^ 2 ≤ (c.x - d.x) ^ 2 + (c.y - d.y) ^ 2) :
    (coinOf c).center ≠ (coinOf d).center := by
  intro heq
  obtain ⟨hx, hy⟩ := Point.mk.inj heq
  linarith [sq_sub_lt hx, sq_sub_lt hy]

/-- Circles that are far apart clash if and only if their radii are the same as integers. -/
theorem dup_eq_false_iff {c d : Circle} (h : 60 ^ 2 ≤ (c.x - d.x) ^ 2 + (c.y - d.y) ^ 2) :
    dup (coinOf c) (coinOf d) = false ↔ int c.radius ≠ int d.radius := by
  rw [dup, Bool.or_eq_false_iff, beq_eq_false_iff_ne, beq_eq_false_iff_ne]
  exact ⟨fun hdup => hdup.2, fun hne => ⟨center_ne h, hne⟩⟩

/-- The GPU keeps the coins that do not clash. -/
theorem countGpu_coins (fresh : Option Bool) (circles : List Circle) :
    (countGpu fresh circles).coins = (circles.map coinOf).foldl (push dup) [] :=
  (List.foldl_map).symm

/-- Both count the same if and only if no two coins clash. -/
theorem coins_eq_iff (fresh : Option Bool) (withRings : Bool) (dst : Point → Byte)
    (circles : List Circle) :
    (countGpu fresh circles).coins = (countCpu withRings dst circles).coins ↔
      (circles.map coinOf).Pairwise (dup · · = false) := by
  have hfilter : (circles.map coinOf).foldl (push dup) [] = [] ++ circles.map coinOf ↔ _ :=
    foldl_push_eq_append_iff [] (circles.map coinOf)
  rw [List.nil_append] at hfilter
  rw [countGpu_coins, countCpu, hfilter]
  exact ⟨fun h => h.2, fun h => ⟨fun _ hk => (List.not_mem_nil hk).elim, h⟩⟩

/-- No two coins of circles that are apart clash if and only if all radii differ as integers. -/
theorem pairwise_dup_iff {circles : List Circle} (h : Apart circles) :
    (circles.map coinOf).Pairwise (dup · · = false) ↔
      (circles.map fun circle => int circle.radius).Nodup := by
  rw [List.Nodup, List.pairwise_map, List.pairwise_map]
  constructor
  · intro hdup
    exact (h.and hdup).imp fun ⟨hapart, hfree⟩ => (dup_eq_false_iff hapart).mp hfree
  · intro hnodup
    exact (h.and hnodup).imp fun ⟨hapart, hne⟩ => (dup_eq_false_iff hapart).mpr hne

/-- The two paths count the same coins, and the filter drops nothing but
repeats, if and only if no two circles have one truncated radius. -/
theorem countGpu_eq_countCpu_iff (fresh : Option Bool) (withRings : Bool) (dst : Point → Byte)
    (circles : List Circle) (h : Apart circles) :
    ((countGpu fresh circles).coins = (countCpu withRings dst circles).coins ∧
        DropsOnlyRepeats fresh circles) ↔
      (circles.map fun circle => int circle.radius).Nodup := by
  rw [← pairwise_dup_iff h, ← coins_eq_iff fresh withRings dst]
  constructor
  · rintro ⟨hcoins, -⟩
    exact hcoins
  · intro hcoins
    refine ⟨hcoins, ?_⟩
    -- nothing is dropped, since nothing clashes with what is in front of it
    rintro seen circle rest rfl hany
    have hpair := (coins_eq_iff fresh withRings dst _).mp hcoins
    rw [List.map_append, List.map_cons, List.pairwise_append] at hpair
    obtain ⟨hseen, -, hcross⟩ := hpair
    rw [(coins_eq_iff fresh withRings dst seen).mpr hseen] at hany
    obtain ⟨kept, hkept, hdup⟩ := List.any_eq_true.mp hany
    rw [hcross kept hkept (coinOf circle) List.mem_cons_self] at hdup
    cases hdup

theorem countGpu_eq_countCpu_of_two_sizes :
    Apart [⟨100, 100, 40⟩, ⟨200, 100, 41⟩] ∧
      (((countGpu none [⟨100, 100, 40⟩, ⟨200, 100, 41⟩]).coins =
            (countCpu false (fun _ => 0) [⟨100, 100, 40⟩, ⟨200, 100, 41⟩]).coins ∧
          DropsOnlyRepeats none [⟨100, 100, 40⟩, ⟨200, 100, 41⟩]) ↔
        ([⟨100, 100, 40⟩, ⟨200, 100, 41⟩].map fun circle : Circle => int circle.radius).Nodup) :=
  have hapart : Apart [⟨100, 100, 40⟩, ⟨200, 100, 41⟩] := by
    norm_num [Apart]
  ⟨hapart, countGpu_eq_countCpu_iff none false (fun _ => 0) _ hapart⟩

/-- Of two coins of one size `countGpu` counts one. -/
theorem equal_coins_are_dropped :
    Apart [⟨100, 100, 40⟩, ⟨200, 100, 40⟩] ∧
      (countGpu none [⟨100, 100, 40⟩, ⟨200, 100, 40⟩]).coins = [⟨⟨100, 100⟩, 40⟩] ∧
      (countCpu false (fun _ => 0) [⟨100, 100, 40⟩, ⟨200, 100, 40⟩]).coins =
        [⟨⟨100, 100⟩, 40⟩, ⟨⟨200, 100⟩, 40⟩] := by
  refine ⟨?_, rfl, rfl⟩
  norm_num [Apart]

end CoinCounter

end Sogx
