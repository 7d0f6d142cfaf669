/-
**Additive Fourier transforms.**

The points are numbers, and twiddle factors `t i u` are given for the levels `i` and the points `u`:
additive in the bits of the point, zero on the points below `2 ^ i`, and one at `2 ^ i`. Coefficient
`j` of a vector stands for the product of the `t i u` over the bits `i` of `j`.

* `values_succ` — **a vector of values by halves**: the halves are the values of two combinations of
  the halves of the coefficients, the second one on the points with the next bit.
-/

import Longfellow.Lib.BitReversal
import Mathlib.Algebra.BigOperators.Fin
import Mathlib.Algebra.BigOperators.Intervals

namespace Lib.AdditiveFft

variable {R : Type} [CommRing R]

/-- Twiddle factors, for points of `d` bits. -/
structure Twiddles (d : ℕ) (t : ℕ → ℕ → R) : Prop where
  xor : ∀ i < d, ∀ u < 2 ^ d, ∀ v < 2 ^ d, t i (u ^^^ v) = t i u + t i v
  low : ∀ i < d, ∀ v < 2 ^ i, t i v = 0
  unit : ∀ i < d, t i (2 ^ i) = 1

/-- The value of `2 ^ l` coefficients at a point. -/
def evaluate (t : ℕ → ℕ → R) : ℕ → List R → ℕ → R
  | 0, c, _ => c.getD 0 0
  | l + 1, c, u => evaluate t l (c.take (2 ^ l)) u + evaluate t l (c.drop (2 ^ l)) u * t l u

/-- The values at the points of a coset, in the order of the numbers. -/
def values (t : ℕ → ℕ → R) (l coset : ℕ) (c : List R) : List R :=
  (List.range (2 ^ l)).map fun j => evaluate t l c (coset ^^^ j)

/-- What the first half of the values is made of. -/
def lower (w : R) (left right : List R) : List R := List.zipWith (fun x y => x + y * w) left right

/-- What the second half of the values is made of. -/
def upper (w : R) (left right : List R) : List R :=
  List.zipWith (fun x y => y + (x + y * w)) left right

variable {t : ℕ → ℕ → R} {d l coset : ℕ}

@[simp] theorem length_values (c : List R) : (values t l coset c).length = 2 ^ l := by
  simp [values]

@[simp] theorem length_lower (w : R) (left right : List R) :
    (lower w left right).length = min left.length right.length := by
  simp [lower]

@[simp] theorem length_upper (w : R) (left right : List R) :
    (upper w left right).length = min left.length right.length := by
  simp [upper]

theorem lower_append {w : R} {x₁ x₂ y₁ y₂ : List R} (same : x₁.length = y₁.length) :
    lower w (x₁ ++ x₂) (y₁ ++ y₂) = lower w x₁ y₁ ++ lower w x₂ y₂ :=
  List.zipWith_append same

theorem upper_append {w : R} {x₁ x₂ y₁ y₂ : List R} (same : x₁.length = y₁.length) :
    upper w (x₁ ++ x₂) (y₁ ++ y₂) = upper w x₁ y₁ ++ upper w x₂ y₂ :=
  List.zipWith_append same

theorem evaluate_lower (w : R) {left right : List R} (sizeL : left.length = 2 ^ l)
    (sizeR : right.length = 2 ^ l) (u : ℕ) :
    evaluate t l (lower w left right) u = evaluate t l left u + evaluate t l right u * w := by
  induction l generalizing left right with
  | zero =>
    obtain ⟨x, rfl⟩ := List.length_eq_one_iff.mp sizeL
    obtain ⟨y, rfl⟩ := List.length_eq_one_iff.mp sizeR
    simp [evaluate, lower]
  | succ l ih =>
    have half : 2 ^ (l + 1) = 2 ^ l + 2 ^ l := by rw [pow_succ, Nat.mul_two]
    have first := @ih (left.take (2 ^ l)) (right.take (2 ^ l)) (by simp; omega) (by simp; omega)
    have second := @ih (left.drop (2 ^ l)) (right.drop (2 ^ l)) (by simp; omega) (by simp; omega)
    rw [lower] at first second
    rw [evaluate, evaluate, evaluate, lower, List.take_zipWith, List.drop_zipWith, first, second]
    ring

theorem evaluate_upper (w : R) {left right : List R} (sizeL : left.length = 2 ^ l)
    (sizeR : right.length = 2 ^ l) (u : ℕ) :
    evaluate t l (upper w left right) u = evaluate t l left u + evaluate t l right u * (w + 1) := by
  have same : upper w left right = lower (w + 1) left right := by
    refine congrArg (fun f => List.zipWith f left right) (funext fun x => funext fun y => ?_)
    ring
  rw [same, evaluate_lower _ sizeL sizeR]

theorem range_two_pow_succ (k : ℕ) :
    List.range (2 ^ (k + 1)) = List.range (2 ^ k) ++ (List.range (2 ^ k)).map (2 ^ k + ·) := by
  rw [pow_succ, Nat.mul_two, List.range_add]

/-- **The values by halves.** -/
theorem values_succ (twiddles : Twiddles d t) (inside : l < d) (point : coset < 2 ^ d)
    {left right : List R} (sizeL : left.length = 2 ^ l) (sizeR : right.length = 2 ^ l) :
    values t (l + 1) coset (left ++ right) =
      values t l coset (lower (t l coset) left right) ++
        values t l (coset ^^^ 2 ^ l) (upper (t l coset) left right) := by
  have below : 2 ^ l < 2 ^ d := Nat.pow_lt_pow_right (by decide) inside
  have split : ∀ u, evaluate t (l + 1) (left ++ right) u =
      evaluate t l left u + evaluate t l right u * t l u := fun u => by
    rw [evaluate, ← sizeL, List.take_left, List.drop_left]
  have first : ∀ j < 2 ^ l, t l (coset ^^^ j) = t l coset := fun j small => by
    rw [twiddles.xor l inside coset point j (small.trans below), twiddles.low l inside j small,
      add_zero]
  have second : ∀ j < 2 ^ l, t l (coset ^^^ 2 ^ l ^^^ j) = t l coset + 1 := fun j small => by
    rw [twiddles.xor l inside _ (Nat.xor_lt_two_pow point below) j (small.trans below),
      twiddles.xor l inside coset point _ below, twiddles.low l inside j small,
      twiddles.unit l inside, add_zero]
  rw [values, range_two_pow_succ, List.map_append, List.map_map]
  refine congrArg₂ (· ++ ·) (List.map_congr_left fun j member => ?_)
    (List.map_congr_left fun j member => ?_)
  · have small := List.mem_range.mp member
    rw [split, evaluate_lower _ sizeL sizeR, first j small]
  · have small := List.mem_range.mp member
    rw [Function.comp_apply, xor_two_pow_add small, ← Nat.xor_assoc, split,
      evaluate_upper _ sizeL sizeR, second j small]

theorem values_zero {c : List R} (size : c.length = 1) : values t 0 coset c = c := by
  obtain ⟨x, rfl⟩ := List.length_eq_one_iff.mp size
  simp [values, evaluate]

theorem two_pow_sub_one_sub {j : ℕ} (small : j < 2 ^ l) :
    2 ^ l - 1 - j = (2 ^ l - 1) ^^^ j := by
  refine Nat.eq_of_testBit_eq fun i => ?_
  rw [Nat.sub_sub, Nat.add_comm 1 j, Nat.testBit_two_pow_sub_succ small, Nat.testBit_xor,
    Nat.testBit_two_pow_sub_one]
  by_cases low : i < l
  · simp [low]
  · have high : j < 2 ^ i := small.trans_le (Nat.pow_le_pow_right (by decide) (not_lt.mp low))
    simp [low, Nat.testBit_lt_two_pow high]

/-- **The values backwards** are those of another coset. -/
theorem values_reverse (c : List R) :
    values t l (coset ^^^ (2 ^ l - 1)) c = (values t l coset c).reverse := by
  have backwards : (List.range (2 ^ l)).reverse = (List.range (2 ^ l)).map (2 ^ l - 1 - ·) := by
    rw [List.range_eq_range', List.reverse_range', Nat.zero_add, ← List.range_eq_range']
  rw [values, values, ← List.map_reverse, backwards, List.map_map]
  refine List.map_congr_left fun j member => ?_
  rw [Function.comp_apply, two_pow_sub_one_sub (List.mem_range.mp member), Nat.xor_assoc]

/-! ### The value as a sum -/

/-- **The value** of coefficients is the sum of the products that they stand for. -/
theorem evaluate_eq (c : List R) (u : ℕ) :
    evaluate t l c u =
      ∑ j ∈ Finset.range (2 ^ l), c.getD j 0 * ∏ i ∈ Finset.range l,
        if j.testBit i then t i u else 1 := by
  induction l generalizing c with
  | zero => simp [evaluate]
  | succ l ih =>
    rw [evaluate, ih, ih, pow_succ, Nat.mul_two, Finset.sum_range_add, Finset.sum_mul]
    refine congrArg₂ (· + ·) (Finset.sum_congr rfl fun j member => ?_)
      (Finset.sum_congr rfl fun j member => ?_)
    · have small := Finset.mem_range.mp member
      rw [Finset.prod_range_succ, Nat.testBit_lt_two_pow small, if_neg Bool.false_ne_true, mul_one,
        List.getD_eq_getElem?_getD, List.getElem?_take_of_lt small, ← List.getD_eq_getElem?_getD]
    · have small := Finset.mem_range.mp member
      have top : (2 ^ l + j).testBit l = true := by
        rw [Nat.testBit_two_pow_add_eq, Nat.testBit_lt_two_pow small]
        rfl
      have bits : ∀ i ∈ Finset.range l,
          (if j.testBit i then t i u else 1) = if (2 ^ l + j).testBit i then t i u else 1 := by
        intro i low
        rw [Nat.testBit_two_pow_add_gt (Finset.mem_range.mp low)]
      rw [Finset.prod_range_succ, top, if_pos rfl, ← Finset.prod_congr rfl bits, mul_assoc,
        List.getD_eq_getElem?_getD, List.getElem?_drop, ← List.getD_eq_getElem?_getD]

theorem values_congr {t' : ℕ → ℕ → R} (same : ∀ i < l, t i = t' i) (c : List R) :
    values t l coset c = values t' l coset c := by
  refine List.map_congr_left fun j _ => ?_
  rw [evaluate_eq, evaluate_eq]
  refine Finset.sum_congr rfl fun j _ => congrArg _ (Finset.prod_congr rfl fun i member => ?_)
  rw [same i (Finset.mem_range.mp member)]

/-! ### The two halves back -/

section Back

variable {w : R} {left right : List R}

theorem zipWith_lower_sub (same : left.length = right.length) :
    List.zipWith (fun a y => a - y * w) (lower w left right) right = left := by
  refine List.ext_getElem (by simp [same]) fun i _ _ => ?_
  simp [lower]

theorem zipWith_lower_add (w : R) (left right : List R) :
    List.zipWith (fun a y => y + a) (lower w left right) right = upper w left right := by
  refine List.ext_getElem (by simp) fun i _ _ => ?_
  simp [lower, upper]

theorem zipWith_upper_sub (same : left.length = right.length) :
    List.zipWith (fun a b => b - a) (lower w left right) (upper w left right) = right := by
  refine List.ext_getElem (by simp [same]) fun i _ _ => ?_
  simp [lower, upper]

theorem zipWith_upper_sub_mul (same : left.length = right.length) :
    List.zipWith (fun a b => a - (b - a) * w) (lower w left right) (upper w left right) = left := by
  refine List.ext_getElem (by simp [same]) fun i _ _ => ?_
  simp [lower, upper]

end Back

/-! ### Values and coefficients -/

/-- Values at the first `k` points, and coefficients from `k` on. -/
def before (t : ℕ → ℕ → R) (l coset k : ℕ) (c : List R) : List R :=
  (values t l coset c).take k ++ c.drop k

/-- Coefficients below `k`, and values at the points from `k` on. -/
def after (t : ℕ → ℕ → R) (l coset k : ℕ) (c : List R) : List R :=
  c.take k ++ (values t l coset c).drop k

end Lib.AdditiveFft
