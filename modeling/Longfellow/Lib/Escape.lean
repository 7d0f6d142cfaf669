/-
**Lucky challenges.**

Who claims something false before a challenge is drawn is caught, unless the challenge is a root of a
polynomial that was fixed before and is not zero: the claim escapes.

* `innerEscapes_of_carry` — **the sumcheck of an inner product**: a false claim is carried to the
  product of the bound vectors by an escape only.
-/

import Longfellow.Lib.Multilinear
import Mathlib.Algebra.Polynomial.Roots
import Mathlib.Tactic.LinearCombination

namespace Lib

variable {R : Type} [CommRing R]

/-- The challenge is a root of a quadratic polynomial that is not zero. -/
def Escapes (a b c z : R) : Prop := (a ≠ 0 ∨ b ≠ 0 ∨ c ≠ 0) ∧ a + z * b + z * z * c = 0

/-! ### The sumcheck of an inner product -/

/-- Carry a claim through rounds with the given constant and linear coefficients. -/
def carry : List (R × R) → List R → R → R
  | m :: rounds, z :: zs, claim =>
    carry rounds zs (z * z * claim + (1 - z * z) * m.1 + z * m.2)
  | _, _, claim => claim

/-- A challenge of the rounds escapes: the polynomial that the message describes agrees there with
the one of the two vectors, as they are bound by the challenges before. -/
def InnerEscapes : List (R × R) → List R → List R → List R → R → Prop
  | m :: rounds, z :: zs, q, w, claim =>
    Escapes (m.1 - (pairSums q w).1) (m.2 - ((pairSums q w).2 - dot q w))
        (claim - dot q w - (m.1 - (pairSums q w).1)) z ∨
      InnerEscapes rounds zs (foldPairs z q) (foldPairs z w)
        (z * z * claim + (1 - z * z) * m.1 + z * m.2)
  | _, _, _, _, _ => False

/-- **A false claim about an inner product is carried to the product of the bound vectors by an
escape only.** -/
theorem innerEscapes_of_carry {rounds : List (R × R)} {zs q w : List R} {claim : R}
    (sizes : zs.length = rounds.length) (size : q.length = w.length) (positive : 0 < w.length)
    (fits : w.length ≤ 2 ^ rounds.length) (lies : claim ≠ dot q w)
    (carried : carry rounds zs claim =
      dot (monomials zs w.length) w * dot (monomials zs q.length) q) :
    InnerEscapes rounds zs q w claim := by
  induction rounds generalizing zs q w claim with
  | nil =>
    obtain ⟨a, rfl⟩ := List.length_eq_one_iff.mp (le_antisymm fits positive)
    obtain ⟨b, rfl⟩ := List.length_eq_one_iff.mp size
    obtain rfl := List.eq_nil_of_length_eq_zero sizes
    refine (lies (carried.trans ?_)).elim
    simp [monomials, tensors, tensor, mul_comm]
  | cons m rounds ih =>
    obtain ⟨z, zs, rfl⟩ := List.exists_cons_of_length_eq_add_one sizes
    have folded := dot_foldPairs z size
    by_cases next : z * z * claim + (1 - z * z) * m.1 + z * m.2 =
        dot (foldPairs z q) (foldPairs z w)
    · refine .inl ⟨?_, by linear_combination next + folded⟩
      -- Both outer coefficients vanish of a true claim only.
      by_cases first : m.1 - (pairSums q w).1 = 0
      · refine .inr (.inr ?_)
        rw [first, sub_zero]
        exact sub_ne_zero.mpr lies
      · exact .inl first
    · rw [List.length_cons, pow_succ] at fits
      rw [carry, dot_monomials_cons, dot_monomials_cons] at carried
      exact .inr (ih (by simpa using sizes) (by rw [length_foldPairs, length_foldPairs, size])
        (by rw [length_foldPairs]; omega) (by rw [length_foldPairs]; omega) next carried)

end Lib
