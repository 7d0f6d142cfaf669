/-
**Fourier transforms of real vectors.**

`Gaussian E` adds a square root of minus one to a ring. The transform of a vector of `E` has conjugate
values at `j` and `m - j`, and is stored as `m` elements of `E`: real parts first, and then imaginary
parts.

* `dft_sub` — **the conjugate symmetry**.
-/

import Longfellow.Lib.Chunks
import Mathlib.Algebra.QuadraticAlgebra.Basic
import Mathlib.Algebra.Star.BigOperators
import Mathlib.Tactic.LinearCombination

namespace Lib

open Finset

/-- A ring with a square root of minus one. -/
abbrev Gaussian (E : Type) [CommRing E] := QuadraticAlgebra E (-1) 0

namespace Gaussian

variable {E : Type} [CommRing E] {m j : ℕ} {v : Gaussian E}

/-- An element of the ring. -/
def ofReal (x : E) : Gaussian E := ⟨x, 0⟩

@[simp] theorem re_ofReal (x : E) : (ofReal x).re = x := rfl

@[simp] theorem im_ofReal (x : E) : (ofReal x).im = 0 := rfl

/-- The square root of minus one. -/
def i : Gaussian E := ⟨0, 1⟩

theorem i_mul_i : i * i = (-1 : Gaussian E) := by
  ext <;> simp [i, QuadraticAlgebra.re_one, QuadraticAlgebra.im_one]

theorem ofReal_mul (x y : E) : ofReal (x * y) = ofReal x * ofReal y := by
  ext <;> simp

theorem ofReal_sum {ι : Type} (s : Finset ι) (f : ι → E) :
    ofReal (∑ k ∈ s, f k) = ∑ k ∈ s, ofReal (f k) :=
  map_sum (algebraMap E (Gaussian E)) f s

theorem star_ofReal (x : E) : star (ofReal x) = ofReal x := by
  ext <;> simp

/-- The value at `j` of the transform of `m` elements. -/
def dft (m : ℕ) (v : Gaussian E) (x : ℕ → E) (j : ℕ) : Gaussian E :=
  ∑ k ∈ range m, ofReal (x k) * v ^ (j * k)

/-- A transform as elements of the ring: the real parts of the first values, and the imaginary parts
of those at the opposite of the others. -/
def halfComplex (m : ℕ) (F : ℕ → Gaussian E) (j : ℕ) : E :=
  if 2 * j ≤ m then (F j).re else (F (m - j)).im

variable {x y : ℕ → E}

theorem dft_zero (m : ℕ) (v : Gaussian E) (x : ℕ → E) :
    dft m v x 0 = ofReal (∑ k ∈ range m, x k) := by
  rw [dft, ofReal_sum]
  refine sum_congr rfl fun k _ => ?_
  rw [Nat.zero_mul, pow_zero, mul_one]

theorem dft_congr (same : ∀ k < m, x k = y k) : dft m v x j = dft m v y j :=
  sum_congr rfl fun k member => by rw [same k (mem_range.mp member)]

section Root

variable (root : v ^ m = 1)

include root in
theorem pow_add_mul (k q : ℕ) : v ^ (k + q * m) = v ^ k := by
  rw [pow_add, Nat.mul_comm, pow_mul, root, one_pow, mul_one]

include root in
theorem dft_add (x : ℕ → E) (j q : ℕ) : dft m v x (j + q * m) = dft m v x j := by
  refine sum_congr rfl fun k _ => ?_
  have exponent : (j + q * m) * k = j * k + q * k * m := by ring
  rw [exponent, pow_add_mul root]

variable (circle : v * star v = 1)

include root circle in
/-- **The conjugate symmetry.** -/
theorem dft_sub (x : ℕ → E) (inside : j ≤ m) : dft m v x (m - j) = star (dft m v x j) := by
  rw [dft, dft, star_sum]
  refine sum_congr rfl fun k _ => ?_
  have opposite : v ^ ((m - j) * k) * v ^ (j * k) = 1 := by
    rw [← pow_add, ← Nat.add_mul, Nat.sub_add_cancel inside, pow_mul, root, one_pow]
  have conjugate : v ^ (j * k) * star (v ^ (j * k)) = 1 := by
    rw [star_pow, ← mul_pow, circle, one_pow]
  rw [star_mul', star_ofReal, left_inv_eq_right_inv opposite conjugate]

include root circle in
theorem im_dft_half [NoZeroDivisors E] (two : (2 : E) ≠ 0) (x : ℕ → E) (middle : 2 * j = m) :
    (dft m v x j).im = 0 := by
  have symmetric := dft_sub root circle x (j := j) (by omega)
  have same : m - j = j := by omega
  rw [same] at symmetric
  have opposite := congrArg QuadraticAlgebra.im symmetric
  rw [QuadraticAlgebra.im_star] at opposite
  have twice : 2 * (dft m v x j).im = 0 := by linear_combination opposite
  exact (mul_eq_zero.mp twice).resolve_left two

end Root

/-- **A transform from those of every fourth element.** -/
theorem dft_quarters (m : ℕ) (v : Gaussian E) (x : ℕ → E) (j : ℕ) :
    dft (4 * m) v x j =
      ∑ p ∈ range 4, v ^ (j * p) * dft m (v ^ 4) (fun k => x (4 * k + p)) j := by
  have rows := sum_rows (fun k => ofReal (x k) * v ^ (j * k)) m 4
  rw [dft, Nat.mul_comm, ← rows, sum_comm]
  refine sum_congr rfl fun p _ => ?_
  rw [dft, mul_sum]
  refine sum_congr rfl fun k _ => ?_
  rw [← pow_mul, Nat.mul_comm k 4]
  ring

/-- The terms of the value at `j`, one for every part of the vector. -/
def terms (m : ℕ) (v : Gaussian E) (x : ℕ → E) (j p : ℕ) : Gaussian E :=
  v ^ (j * p) * dft m (v ^ 4) (fun k => x (4 * k + p)) j

/-- **Four values from the same terms**: from one to the next the terms are turned by a quarter. -/
theorem dft_turns (turn : v ^ m = -i) (x : ℕ → E) (j : ℕ) :
    dft (4 * m) v x j = terms m v x j 0 + terms m v x j 1 + terms m v x j 2 + terms m v x j 3 ∧
      dft (4 * m) v x (m + j) =
        terms m v x j 0 - i * terms m v x j 1 - terms m v x j 2 + i * terms m v x j 3 ∧
      dft (4 * m) v x (2 * m + j) =
        terms m v x j 0 - terms m v x j 1 + terms m v x j 2 - terms m v x j 3 ∧
      dft (4 * m) v x (3 * m + j) =
        terms m v x j 0 + i * terms m v x j 1 - terms m v x j 2 - i * terms m v x j 3 := by
  have square := i_mul_i (E := E)
  have root : (v ^ 4) ^ m = 1 := by
    rw [← pow_mul, Nat.mul_comm, pow_mul, turn]
    linear_combination (i * i - 1) * square
  have each : ∀ q, dft (4 * m) v x (q * m + j) =
      ∑ p ∈ range 4, (-i) ^ (q * p) * terms m v x j p := by
    intro q
    rw [dft_quarters]
    refine sum_congr rfl fun p _ => ?_
    have exponent : (q * m + j) * p = m * (q * p) + j * p := by ring
    rw [Nat.add_comm (q * m) j, dft_add root, Nat.add_comm j, exponent, pow_add, pow_mul, turn, terms,
      mul_assoc]
  have zero := each 0
  have one := each 1
  have two := each 2
  have three := each 3
  simp only [Nat.zero_mul, sum_range_succ, sum_range_zero, zero_add, Nat.mul_zero, pow_zero, one_mul,
    Nat.mul_one, pow_one] at zero one two three
  refine ⟨zero, one.trans ?_, two.trans ?_, three.trans ?_⟩
  · linear_combination (terms m v x j 2 - i * terms m v x j 3) * square
  · linear_combination (terms m v x j 1 + (i * i - 1) * terms m v x j 2 +
      (i ^ 4 - i ^ 2 + 1) * terms m v x j 3) * square
  · linear_combination (-i * terms m v x j 1 + (i ^ 4 - i ^ 2 + 1) * terms m v x j 2 -
      i * (i ^ 6 - i ^ 4 + i ^ 2 - 1) * terms m v x j 3) * square

/-! ### Convolutions -/

/-- The cyclic convolution of `m` elements. -/
def cyclic (m : ℕ) (x y : ℕ → E) (k : ℕ) : E := ∑ i ∈ range m, x i * y ((k + m - i) % m)

/-- **The transform of a cyclic convolution.** -/
theorem dft_cyclic (root : v ^ m = 1) (x y : ℕ → E) (j : ℕ) :
    dft m v (cyclic m x y) j = dft m v x j * dft m v y j := by
  have shifted : ∀ i < m, ∑ k ∈ range m, ofReal (y ((k + m - i) % m)) * v ^ (j * k) =
      v ^ (j * i) * dft m v y j := by
    intro i below
    rw [dft, mul_sum]
    refine sum_nbij' (fun k => (k + m - i) % m) (fun k => (k + i) % m) ?_ ?_ ?_ ?_ ?_
    · exact fun k _ => mem_range.mpr (Nat.mod_lt _ (by omega))
    · exact fun k _ => mem_range.mpr (Nat.mod_lt _ (by omega))
    · intro k member
      have inside := mem_range.mp member
      rw [Nat.mod_add_mod, Nat.sub_add_cancel (by omega), Nat.add_mod_right, Nat.mod_eq_of_lt inside]
    · intro k member
      have inside := mem_range.mp member
      have back : (k + i) % m + m - i = (k + i) % m + (m - i) := by omega
      rw [back, Nat.mod_add_mod, Nat.add_assoc, Nat.add_sub_cancel' below.le, Nat.add_mod_right,
        Nat.mod_eq_of_lt inside]
    · intro k member
      have whole : j * k + j * m = j * i + j * (k + m - i) := by
        rw [← Nat.mul_add, ← Nat.mul_add]
        congr 1
        omega
      have wrapped : v ^ (j * ((k + m - i) % m)) = v ^ (j * (k + m - i)) := by
        conv_rhs => rw [← Nat.mod_add_div (k + m - i) m]
        have exponent : j * ((k + m - i) % m + m * ((k + m - i) / m)) =
            j * ((k + m - i) % m) + j * ((k + m - i) / m) * m := by ring
        rw [exponent, pow_add_mul root]
      have power : v ^ (j * k) = v ^ (j * i) * v ^ (j * ((k + m - i) % m)) := by
        rw [wrapped, ← pow_add, ← whole, pow_add_mul root]
      rw [power]
      ring
  have terms : ∀ k, ofReal (cyclic m x y k) * v ^ (j * k) =
      ∑ i ∈ range m, ofReal (x i) * (ofReal (y ((k + m - i) % m)) * v ^ (j * k)) := by
    intro k
    rw [cyclic, ofReal_sum, sum_mul]
    refine sum_congr rfl fun i _ => ?_
    rw [ofReal_mul, mul_assoc]
  rw [dft, sum_congr rfl fun k _ => terms k, sum_comm, dft, sum_mul]
  refine sum_congr rfl fun i member => ?_
  rw [← mul_sum, shifted i (mem_range.mp member), mul_assoc]

end Gaussian

end Lib
