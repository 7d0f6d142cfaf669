/-
**Values on the Boolean cube.**

* `foldAll`, `getD_foldAll` — **binding several variables**: each entry left is the weighted sum of
  the block of entries it comes from.
-/

import Longfellow.Lib.Multilinear
import Mathlib.Algebra.BigOperators.Intervals

namespace Lib

open Finset

variable {R : Type} [CommRing R]

theorem tensor_eq_prod (pairs : List (R × R)) (i : Nat) :
    tensor pairs i = ∏ j ∈ range pairs.length,
      if i.testBit j then (pairs.getD j (0, 0)).2 else (pairs.getD j (0, 0)).1 := by
  induction pairs generalizing i with
  | nil => simp [tensor]
  | cons pair pairs ih =>
    rw [tensor, ih, List.length_cons, prod_range_succ']
    rw [mul_comm]
    congr 1
    · refine prod_congr rfl fun j _ => ?_
      rw [Nat.testBit_succ]
      rfl
    · simp [Nat.testBit_zero]

/-! ### Several variables -/

/-- Bind the variables of a list of weights, the lowest one first. -/
def foldAll (pairs : List (R × R)) (v : List R) : List R :=
  pairs.foldl (fun v pair => foldWith pair.1 pair.2 v) v

/-- **The entries after binding several variables.** -/
theorem getD_foldAll (pairs : List (R × R)) (v : List R) (i : Nat) :
    (foldAll pairs v).getD i 0 =
      ∑ j ∈ range (2 ^ pairs.length), tensor pairs j * v.getD (2 ^ pairs.length * i + j) 0 := by
  induction pairs generalizing v with
  | nil => simp [foldAll, tensor]
  | cons pair pairs ih =>
    have step : foldAll (pair :: pairs) v = foldAll pairs (foldWith pair.1 pair.2 v) := rfl
    rw [step, ih, List.length_cons, pow_succ, mul_comm (2 ^ pairs.length) 2, sum_range_pairs]
    refine sum_congr rfl fun j _ => ?_
    have even : 2 * (2 ^ pairs.length * i + j) = 2 * 2 ^ pairs.length * i + 2 * j := by ring
    rw [getD_foldWith, tensor_even, tensor_odd, even, add_assoc]
    ring

section

variable {v : List R} (pairs : List (R × R)) (nonempty : v ≠ [])
  (fits : v.length ≤ 2 ^ pairs.length)
include pairs nonempty fits

theorem length_foldAll : (foldAll pairs v).length = 1 := by
  induction pairs generalizing v with
  | nil =>
    have positive := List.length_pos_of_ne_nil nonempty
    rw [List.length_nil, pow_zero] at fits
    exact le_antisymm fits positive
  | cons pair pairs ih =>
    have positive := List.length_pos_of_ne_nil nonempty
    have size : (foldWith pair.1 pair.2 v).length = (v.length + 1) / 2 := length_foldWith ..
    rw [List.length_cons, pow_succ] at fits
    exact ih (v := foldWith pair.1 pair.2 v) (List.ne_nil_of_length_pos (by omega)) (by omega)

/-- **Binding all variables** leaves the value of the array, padded with zeros. -/
theorem foldAll_eq :
    foldAll pairs v = [∑ j ∈ range (2 ^ pairs.length), tensor pairs j * v.getD j 0] := by
  obtain ⟨a, single⟩ := List.length_eq_one_iff.mp (length_foldAll pairs nonempty fits)
  have value := getD_foldAll pairs v 0
  rw [single] at value ⊢
  simpa using value

end

/-! ### The diagonal -/

/-- The sum of a function over a prefix, with one weight for the last entry and one for the others. -/
def prefixSum (a b : R) (n : Nat) (f : Nat → R) : R := a * ∑ i ∈ range (n - 1), f i + b * f (n - 1)

theorem prefixSum_even (a b : R) {m : Nat} (positive : 0 < m) {x y : R} {f g : Nat → R}
    (even : ∀ i, f (2 * i) = x * g i) (odd : ∀ i, f (2 * i + 1) = y * g i) :
    prefixSum a b (2 * m) f = prefixSum (a * (x + y)) (b * y + a * x) m g := by
  obtain ⟨m, rfl⟩ := Nat.exists_eq_succ_of_ne_zero positive.ne'
  have pairs : ∀ i, f (2 * i) + f (2 * i + 1) = (x + y) * g i := fun i => by rw [even, odd, add_mul]
  have last : 2 * (m + 1) - 1 = 2 * m + 1 := by omega
  unfold prefixSum
  rw [last, Nat.succ_sub_one, sum_range_succ, sum_range_pairs, even, odd]
  simp only [pairs, ← mul_sum]
  ring

theorem prefixSum_odd (a b : R) (m : Nat) {x y : R} {f g : Nat → R}
    (even : ∀ i, f (2 * i) = x * g i) (odd : ∀ i, f (2 * i + 1) = y * g i) :
    prefixSum a b (2 * m + 1) f = prefixSum (a * (x + y)) (b * x) (m + 1) g := by
  have pairs : ∀ i, f (2 * i) + f (2 * i + 1) = (x + y) * g i := fun i => by rw [even, odd, add_mul]
  unfold prefixSum
  rw [Nat.add_sub_cancel, Nat.add_sub_cancel, sum_range_pairs, even]
  simp only [pairs, ← mul_sum]
  ring

end Lib
