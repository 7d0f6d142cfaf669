/-
**Subspace polynomials of a binary field.**

A list of elements of a field of characteristic two numbers the sums of its elements: `point` adds
the elements at the bits of a number. The vanishing polynomial of the first `2 ^ i` points is
additive; over its value at the element `i`, these polynomials are the factors of a basis of the
polynomials below degree `2 ^ l`.

* `vanishing_succ` — **the next vanishing polynomial**.
-/

import Longfellow.Lib.AdditiveFft
import Mathlib.Algebra.CharP.Two
import Mathlib.Algebra.Polynomial.Eval.Degree
import Mathlib.Tactic.LinearCombination

namespace Lib.Subspace

open Polynomial

variable {E : Type} [Field E]

/-- The sum of the elements at the bits of a number. -/
def point (basis : List E) (u : ℕ) : E :=
  ∑ k ∈ Finset.range basis.length, if u.testBit k then basis.getD k 0 else 0

/-- Different numbers have different points. -/
def Independent (basis : List E) : Prop :=
  ∀ u < 2 ^ basis.length, point basis u = 0 → u = 0

/-- The polynomial that is zero at the first `2 ^ i` points. -/
noncomputable def vanishing (basis : List E) (i : ℕ) : E[X] :=
  ∏ u ∈ Finset.range (2 ^ i), (X - C (point basis u))

/-- The same, with the value one at the element `i`. -/
noncomputable def normalized (basis : List E) (i : ℕ) : E[X] :=
  C ((vanishing basis i).eval (basis.getD i 0))⁻¹ * vanishing basis i

/-- The combination of products of normalized polynomials: coefficient `j` is that of the product
over the bits of `j`. -/
noncomputable def novel (basis : List E) (l : ℕ) (c : List E) : E[X] :=
  ∑ j ∈ Finset.range (2 ^ l), C (c.getD j 0) *
    ∏ i ∈ Finset.range l, if j.testBit i then normalized basis i else 1

variable {basis : List E} {i : ℕ}

@[simp] theorem point_zero : point basis 0 = 0 := by
  simp [point]

theorem point_two_pow (i : ℕ) : point basis (2 ^ i) = basis.getD i 0 := by
  rw [point]
  by_cases inside : i < basis.length
  · rw [Finset.sum_eq_single i]
    · rw [Nat.testBit_two_pow_self, if_pos rfl]
    · intro k _ other
      rw [Nat.testBit_two_pow_of_ne other.symm, if_neg Bool.false_ne_true]
    · exact fun out => absurd (Finset.mem_range.mpr inside) out
  · rw [List.getD_eq_default _ _ (not_lt.mp inside)]
    refine Finset.sum_eq_zero fun k member => ?_
    have below := Finset.mem_range.mp member
    rw [Nat.testBit_two_pow_of_ne (by omega), if_neg Bool.false_ne_true]

theorem vanishing_zero : vanishing basis 0 = X := by
  simp [vanishing]

theorem eval_vanishing_eq_zero {x : E} :
    (vanishing basis i).eval x = 0 ↔ ∃ u < 2 ^ i, x = point basis u := by
  rw [vanishing, eval_prod, Finset.prod_eq_zero_iff]
  simp only [Finset.mem_range, eval_sub, eval_X, eval_C, sub_eq_zero]

theorem eval_normalized (i : ℕ) (x : E) : (normalized basis i).eval x =
    ((vanishing basis i).eval (basis.getD i 0))⁻¹ * (vanishing basis i).eval x := by
  rw [normalized, eval_mul, eval_C]

/-- **The value of a combination.** -/
theorem eval_novel (l : ℕ) (c : List E) (u : ℕ) : (novel basis l c).eval (point basis u) =
    AdditiveFft.evaluate (fun i u => (normalized basis i).eval (point basis u)) l c u := by
  rw [novel, eval_finsetSum, AdditiveFft.evaluate_eq]
  refine Finset.sum_congr rfl fun j _ => ?_
  rw [eval_mul, eval_C, eval_prod]
  refine congrArg _ (Finset.prod_congr rfl fun i _ => ?_)
  rw [apply_ite (eval (point basis u)), eval_one]

variable [CharP E 2]

theorem point_xor (u v : ℕ) : point basis (u ^^^ v) = point basis u + point basis v := by
  rw [point, point, point, ← Finset.sum_add_distrib]
  refine Finset.sum_congr rfl fun k _ => ?_
  rw [Nat.testBit_xor]
  cases u.testBit k <;> cases v.testBit k <;> simp [CharTwo.add_self_eq_zero]

theorem point_add {u : ℕ} (small : u < 2 ^ i) :
    point basis (2 ^ i + u) = point basis u + basis.getD i 0 := by
  rw [xor_two_pow_add small, point_xor, point_two_pow, add_comm]

theorem vanishing_shift (i : ℕ) : vanishing basis (i + 1) =
    vanishing basis i * (vanishing basis i).comp (X + C (basis.getD i 0)) := by
  rw [vanishing, pow_succ, Nat.mul_two, Finset.prod_range_add, vanishing, prod_comp]
  refine congrArg _ (Finset.prod_congr rfl fun u member => ?_)
  rw [point_add (Finset.mem_range.mp member), sub_comp, X_comp, C_comp, C_add, CharTwo.sub_eq_add,
    CharTwo.sub_eq_add]
  ring

/-- **A vanishing polynomial is additive.** -/
theorem vanishing_comp (i : ℕ) (b : E) :
    (vanishing basis i).comp (X + C b) = vanishing basis i + C ((vanishing basis i).eval b) := by
  induction i generalizing b with
  | zero => rw [vanishing_zero, X_comp, eval_X]
  | succ i ih =>
    rw [vanishing_shift, ih, mul_comp, add_comp, C_comp, ih, eval_mul, eval_add, eval_C, C_mul,
      C_add]
    linear_combination
      vanishing basis i * C ((vanishing basis i).eval b) * (CharTwo.two_eq_zero (R := E[X]))

/-- **The next vanishing polynomial.** -/
theorem vanishing_succ (i : ℕ) : vanishing basis (i + 1) =
    vanishing basis i * (vanishing basis i + C ((vanishing basis i).eval (basis.getD i 0))) := by
  rw [vanishing_shift, vanishing_comp]

theorem eval_vanishing_add (i : ℕ) (x y : E) : (vanishing basis i).eval (x + y) =
    (vanishing basis i).eval x + (vanishing basis i).eval y := by
  have shifted : eval x ((vanishing basis i).comp (X + C y)) = _ :=
    congrArg (eval x) (vanishing_comp i y)
  rwa [eval_comp, eval_add, eval_X, eval_C, eval_add, eval_C] at shifted

theorem eval_diagonal_ne_zero (independent : Independent basis) (inside : i < basis.length) :
    (vanishing basis i).eval (basis.getD i 0) ≠ 0 := by
  intro zero
  obtain ⟨u, small, same⟩ := eval_vanishing_eq_zero.mp zero
  have next : 2 ^ i + u < 2 ^ basis.length := by
    have whole := Nat.pow_le_pow_right (n := 2) (by decide) (show i + 1 ≤ basis.length from inside)
    rw [pow_succ] at whole
    omega
  have sum : point basis (2 ^ i + u) = 0 := by
    rw [point_add small, same, CharTwo.add_self_eq_zero]
  have none := independent _ next sum
  have some := Nat.two_pow_pos i
  omega

theorem eval_normalized_add (i : ℕ) (x y : E) : (normalized basis i).eval (x + y) =
    (normalized basis i).eval x + (normalized basis i).eval y := by
  rw [eval_normalized, eval_normalized, eval_normalized, eval_vanishing_add, mul_add]

theorem eval_normalized_point (i u : ℕ) : (normalized basis i).eval (point basis u) =
    ∑ k ∈ Finset.range basis.length,
      if u.testBit k then (normalized basis i).eval (basis.getD k 0) else 0 := by
  let value : E →+ E := AddMonoidHom.mk' (fun x => (normalized basis i).eval x)
    (eval_normalized_add i)
  refine (map_sum value _ _).trans (Finset.sum_congr rfl fun k _ => ?_)
  rw [apply_ite value, map_zero]
  rfl

/-- **The values of the normalized polynomials** at the points. -/
theorem twiddles (independent : Independent basis) : AdditiveFft.Twiddles basis.length
    fun i u => (normalized basis i).eval (point basis u) where
  xor i _ u _ v _ := by
    rw [point_xor, eval_normalized_add]
  low i _ v small := by
    rw [eval_normalized, eval_vanishing_eq_zero.mpr ⟨v, small, rfl⟩, mul_zero]
  unit i inside := by
    rw [eval_normalized, point_two_pow, inv_mul_cancel₀ (eval_diagonal_ne_zero independent inside)]

end Lib.Subspace
