/-
**Pluckers** (`lib/circuits/logic/bit_plucker.h`, `unary_plucker.h`, `polynomial.h`,
`lib/algebra/interpolation.h`).

A plucker evaluates polynomials at an element that encodes some bits, and asserts that the values are
bits. The polynomials are interpolated from what the bits are at the points of the encoding.

* `eval_plucker` — **at a point, a polynomial has the value it is made from**.
-/

import Longfellow.CborV2.Logic
import Longfellow.Lib.Interpolation

set_option linter.unusedSectionVars false

namespace Longfellow.CborV2

open scoped BigOperators

open Lib.Interpolation

/-! ### Polynomials on wires -/

section Polynomial

variable {E : Type} [CircuitField E] [DecidableEq E]

/-- The powers of an element below `n`, each the product of two earlier ones. -/
def powersOfX (n : ℕ) (x : E) : List E :=
  (List.range n).foldl (fun xi k =>
    xi ++ [if k = 0 then Logic.konst 1 else if k = 1 then x
      else xi.getD (k - k / 2) 0 * xi.getD (k / 2) 0]) []

/-- The dot product of some coefficients and the powers of an element. -/
def evalPolynomial (N : ℕ) (coef : ℕ → E) (x : E) : E :=
  (List.range N).foldl (fun r i => r + coef i * (powersOfX N x).getD i 0) (Logic.konst 0)

theorem powersOfX_eq (n : ℕ) (x : E) : powersOfX n x = (List.range n).map (x ^ ·) := by
  unfold powersOfX
  induction n with
  | zero => rfl
  | succ n ih =>
    rw [List.range_succ, List.foldl_append, ih, List.map_append]
    simp only [List.foldl_cons, List.foldl_nil, List.map_cons, List.map_nil]
    congr 2
    have entry : ∀ k < n, ((List.range n).map (x ^ ·)).getD k 0 = x ^ k := by
      intro k below
      rw [List.getD_eq_getElem _ _ (by rwa [List.length_map, List.length_range])]
      simp
    by_cases first : n = 0
    · rw [if_pos first, first, pow_zero]
      exact scalar_one
    by_cases second : n = 1
    · rw [if_neg first, if_pos second, second, pow_one]
    · rw [if_neg first, if_neg second, entry _ (by omega), entry _ (by omega), ← pow_add]
      congr 1
      omega

theorem evalPolynomial_eq (N : ℕ) (coef : ℕ → E) (x : E) :
    evalPolynomial N coef x = ∑ t ∈ Finset.range N, coef t * x ^ t := by
  have entry : ∀ k < N, (powersOfX N x).getD k 0 = x ^ k := by
    intro k below
    rw [powersOfX_eq, List.getD_eq_getElem _ _ (by rwa [List.length_map, List.length_range])]
    simp
  have loop : ∀ n ≤ N, (List.range n).foldl (fun r i => r + coef i * (powersOfX N x).getD i 0)
      (Logic.konst 0) = ∑ t ∈ Finset.range n, coef t * x ^ t := by
    intro n within
    induction n with
    | zero => exact scalar_zero
    | succ n ih =>
      rw [List.range_succ, List.foldl_append, ih (by omega), Finset.sum_range_succ]
      simp only [List.foldl_cons, List.foldl_nil]
      rw [entry n (by omega)]
  exact loop N le_rfl

/-! ### Pluckers -/

open Logic

/-- The point that encodes some bits. -/
def bitPluckerPoint (N bits : ℕ) : E := ofScalar (2 * bits) - ofScalar (N - 1)

/-- The polynomial with the values `Y` at the points of an encoding. -/
def plucker (N : ℕ) (Y : ℕ → E) : ℕ → E := monomialOfLagrange N Y (bitPluckerPoint N)

/-- The values of some polynomials, asserted to be bits. -/
def pluckWith (N count : ℕ) (plucker_ : ℕ → ℕ → E) (e : E) : (ℕ → BitW E) × Assertions :=
  (fun k => .ofElt (evalPolynomial N (plucker_ k) e),
    (List.range count).all fun k => assertIsBit (evalPolynomial N (plucker_ k) e))

def BitPlucker.pluck (LOGN : ℕ) (e : E) : (ℕ → BitW E) × Assertions :=
  pluckWith (2 ^ LOGN) LOGN (fun k => plucker (2 ^ LOGN) fun i => ofScalar ((i >>> k) &&& 1)) e

def UnaryPlucker.pluck (NJ : ℕ) (e : E) : (ℕ → BitW E) × Assertions :=
  pluckWith (NJ + 1) NJ (fun j => plucker (NJ + 1) fun i => ofScalar (if i = j then 1 else 0)) e

theorem pluckWith_iff {N count : ℕ} {plucker_ : ℕ → ℕ → E} {e : E} :
    (pluckWith N count plucker_ e).2 = true ↔
      ∀ k < count, ∃ t, ((pluckWith N count plucker_ e).1 k).Encodes t := by
  rw [pluckWith, List.all_eq_true]
  simp only [List.mem_range, assertIsBit_iff, BitW.Encodes.ofElt_iff]

theorem bitPluckerPoint_injective {N : ℕ} (small : N ≤ 128) :
    ∀ i < N, ∀ j < N, (bitPluckerPoint N i : E) = bitPluckerPoint N j → i = j := by
  intro i left j right same
  have doubled := CircuitField.scalars (E := E) _ _ (by omega) (by omega) (sub_left_inj.mp same)
  omega

theorem eval_plucker {N : ℕ} (small : N ≤ 128) (Y : ℕ → E) {i : ℕ} (inside : i < N) :
    evalPolynomial N (plucker N Y) (bitPluckerPoint N i) = Y i := by
  rw [evalPolynomial_eq]
  exact eval_monomialOfLagrange (bitPluckerPoint_injective small) inside

theorem bitPlucker_point (header : Bool) :
    ((BitPlucker.pluck 1 (bitPluckerPoint 2 header.toNat : E)).1 0).Encodes header := by
  refine BitW.Encodes.ofElt_iff.mpr ((eval_plucker (N := 2) (by norm_num) _ ?_).trans ?_)
  · exact lt_of_le_of_lt (Bool.toNat_le header) (by norm_num)
  · cases header
    · exact scalar_zero
    · exact scalar_one

theorem unaryPlucker_point {NJ : ℕ} (small : NJ < 128) {i j : ℕ} (inside : i ≤ NJ) :
    ((UnaryPlucker.pluck NJ (bitPluckerPoint (NJ + 1) i : E)).1 j).Encodes (decide (i = j)) := by
  refine BitW.Encodes.ofElt_iff.mpr ((eval_plucker (by omega) _ (by omega)).trans ?_)
  by_cases same : i = j
  · rw [if_pos same, if_pos (decide_eq_true same)]
    exact scalar_one
  · rw [if_neg same, decide_eq_false same, if_neg Bool.false_ne_true]
    exact scalar_zero

end Polynomial

end Longfellow.CborV2
