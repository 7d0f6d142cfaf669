/-
**Interpolation of round polynomials** (`runtime/algebra/src/poly.rs`,
`runtime/sumcheck-v1/src/verifier_data.rs`).

A polynomial is given by its values at the field's interpolation points, turned to Newton's basis and
evaluated there. A round of the v1 sumcheck sends two of the three values of a quadratic polynomial;
the third follows from the claim, and the value at the challenge is a combination of the claim and
the two values.

* `RoundCoefficients.new_spec` — **the combination is the value of the quadratic polynomial.**
-/

import Longfellow.Lib.Exec
import Mathlib.Tactic.LinearCombination

namespace Longfellow

open Lib

variable {E : Type}

/-- The interpolation points of a field and the inverses of their differences. -/
structure InterpolationField (E : Type) where
  polyEvaluationPoint : Nat → E
  newtonDenominator : Nat → Nat → E

variable [CommRing E]

/-- The first `n` points start with zero and one, and their differences have inverses. -/
structure InterpolationField.Lawful (f : InterpolationField E) (n : Nat) : Prop where
  zero : f.polyEvaluationPoint 0 = 0
  one : f.polyEvaluationPoint 1 = 1
  denominator : ∀ k i, 1 ≤ i → i ≤ k → k < n →
    f.newtonDenominator k i * (f.polyEvaluationPoint k - f.polyEvaluationPoint (k - i)) = 1

variable (f : InterpolationField E)

/-- One divided difference, in place. -/
def dividedDifference (i : Nat) (evaluations : List E) (k : Nat) : List E :=
  evaluations.set k
    ((evaluations.getD k 0 - evaluations.getD (k - 1) 0) * f.newtonDenominator k i)

/-- From values at the interpolation points to Newton's basis, in place. -/
def newtonOfLagrange (evaluations : List E) : List E :=
  ((List.range evaluations.length).drop 1).foldl (fun evaluations i =>
    ((List.range evaluations.length).drop i).reverse.foldl (dividedDifference f i) evaluations)
    evaluations

/-- Horner's rule in Newton's basis, from point `i` on. -/
def hornerNewton (x : E) : Nat → E → List E → E
  | _, a, [] => a
  | i, a, b :: rest => hornerNewton x (i + 1) b rest * (x - f.polyEvaluationPoint i) + a

/-- Evaluate in Newton's basis. -/
def evalNewton (evaluations : List E) (x : E) : Exec String E :=
  match evaluations with
  | [] => abort "polynomial must contain at least one evaluation"
  | a :: rest => pure (hornerNewton f x 0 a rest)

/-- The Lagrange basis of `n` points in Newton's basis. -/
def LagrangeBasis.new (n : Nat) : List (List E) :=
  (List.range n).map fun k =>
    newtonOfLagrange f ((List.range n).map fun i => if i = k then 1 else 0)

/-- The values of the Lagrange basis at a point. -/
def LagrangeBasis.coef (basis : List (List E)) (x : E) : Exec String (List E) :=
  basis.mapM fun delta => evalNewton f delta x

/-- The multipliers of a round: of the claim, of the value at zero and of the third value. -/
structure RoundCoefficients (E : Type) where
  l1 : E
  l0MinusL1 : E
  l2 : E
  deriving DecidableEq, Repr

/-- The multipliers of a challenge. -/
def RoundCoefficients.new (basis : List (List E)) (challenge : E) :
    Exec String (RoundCoefficients E) := do
  match ← LagrangeBasis.coef f basis challenge with
  | [l0, l1, l2] => pure ⟨l1, l0 - l1, l2⟩
  | _ => abort "a round has three evaluations"

/-- The value of the round's polynomial at the challenge. -/
def RoundCoefficients.evaluate (coefficients : RoundCoefficients E) (polynomial : E × E)
    (claim : E) : E :=
  coefficients.l1 * claim + coefficients.l0MinusL1 * polynomial.1 + coefficients.l2 * polynomial.2

variable {f}

theorem newtonOfLagrange_three (y0 y1 y2 : E) :
    newtonOfLagrange f [y0, y1, y2] = [y0, (y1 - y0) * f.newtonDenominator 1 1,
      ((y2 - y1) * f.newtonDenominator 2 1 - (y1 - y0) * f.newtonDenominator 1 1) *
        f.newtonDenominator 2 2] := rfl

theorem evalNewton_three (e0 e1 e2 x : E) :
    evalNewton f [e0, e1, e2] x = .ok ((e2 * (x - f.polyEvaluationPoint 1) + e1) *
      (x - f.polyEvaluationPoint 0) + e0) := rfl

theorem lagrangeBasis_three : LagrangeBasis.new f 3 = [newtonOfLagrange f [1, 0, 0],
    newtonOfLagrange f [0, 1, 0], newtonOfLagrange f [0, 0, 1]] := rfl

/-- **The multipliers of a challenge** give the value there of every quadratic polynomial, from its
values at zero and at the third point and the sum of its values at zero and one. -/
theorem RoundCoefficients.new_spec (lawful : f.Lawful 3) (z : E) :
    ∃ coefficients, RoundCoefficients.new f (LagrangeBasis.new f 3) z = .ok coefficients ∧
      ∀ a0 a1 a2 : E, coefficients.evaluate
        (a0, (a2 * f.polyEvaluationPoint 2 + a1) * f.polyEvaluationPoint 2 + a0)
        (a0 + (a0 + a1 + a2)) = a0 + a1 * z + a2 * (z * z) := by
  have d11 := lawful.denominator 1 1 le_rfl le_rfl (by decide)
  have d21 := lawful.denominator 2 1 le_rfl (by decide) (by decide)
  have d22 := lawful.denominator 2 2 (by decide) le_rfl (by decide)
  simp only [Nat.sub_self, lawful.zero, lawful.one, sub_zero, mul_one, Nat.reduceSub] at d11 d21 d22
  simp only [RoundCoefficients.new, LagrangeBasis.coef, lagrangeBasis_three, List.mapM_cons,
    List.mapM_nil, newtonOfLagrange_three, evalNewton_three, ok_bind, pure_eq_ok, lawful.zero,
    lawful.one, d11]
  refine ⟨_, rfl, fun a0 a1 a2 => ?_⟩
  generalize f.polyEvaluationPoint 2 = p at *
  generalize f.newtonDenominator 2 1 = d at *
  generalize f.newtonDenominator 2 2 = e at *
  rw [RoundCoefficients.evaluate]
  linear_combination (a1 + a2 * (p + 1)) * e * (z - 1) * z * d21 + a2 * (z - 1) * z * d22

end Longfellow
