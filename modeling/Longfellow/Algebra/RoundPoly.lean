/-
**Three ways to evaluate a round polynomial** (`runtime/algebra/src/poly.rs`).

A round polynomial is sent as its values at the field's interpolation points. The prover turns them to
Newton's basis and runs Horner's rule, the verifier takes the inner product of the values with the
Lagrange coefficients of the point, and both are the value of the one polynomial of that degree.

* `evalNewton_values` — **Horner's rule on it is the interpolating polynomial**.
-/

import Longfellow.Algebra.Blas
import Longfellow.Algebra.Poly
import Longfellow.Lib.Interpolation
import Mathlib.Data.List.GetD
import Mathlib.Algebra.Field.ZMod

namespace Longfellow

open Lib Lib.Interpolation

variable {E : Type} [Field E] {f : InterpolationField E} {n : ℕ} {A : ℕ → E}

/-- Evaluate from the values at the interpolation points. -/
def evalLagrange (f : InterpolationField E) (evaluations : List E) (x : E) : Exec String E :=
  evalNewton f (newtonOfLagrange f evaluations) x

/-- The first `n` points are apart, and their differences have the inverses the field says. -/
structure InterpolationField.Interpolates (f : InterpolationField E) (n : ℕ) : Prop where
  apart : ∀ i < n, ∀ j < n, f.polyEvaluationPoint i = f.polyEvaluationPoint j → i = j
  denominator : ∀ k i, 1 ≤ i → i ≤ k → k < n →
    f.newtonDenominator k i * (f.polyEvaluationPoint k - f.polyEvaluationPoint (k - i)) = 1

/-- The value at a point of the polynomial through some values. -/
noncomputable def interpolated (f : InterpolationField E) (evaluations : List E) (x : E) : E :=
  (Lagrange.interpolate (Finset.range evaluations.length) f.polyEvaluationPoint
    fun i => evaluations.getD i 0).eval x

/-! ### Divided differences in place -/

/-- The first `n` values. -/
def firstValues (n : ℕ) (A : ℕ → E) : List E := (List.range n).map A

omit [Field E] in
theorem length_firstValues (n : ℕ) (A : ℕ → E) : (firstValues n A).length = n := by
  rw [firstValues, List.length_map, List.length_range]

theorem getD_firstValues {k : ℕ} (inside : k < n) (A : ℕ → E) :
    (firstValues n A).getD k 0 = A k := by
  rw [firstValues, List.getD_eq_getElem?_getD, List.getElem?_map, List.getElem?_range inside]
  rfl

omit [Field E] in
theorem firstValues_congr {A' : ℕ → E} (same : ∀ k < n, A k = A' k) :
    firstValues n A = firstValues n A' :=
  List.map_congr_left fun k member => same k (List.mem_range.mp member)

omit [Field E] in
theorem set_firstValues (n k : ℕ) (A : ℕ → E) (v : E) :
    (firstValues n A).set k v = firstValues n (Function.update A k v) := by
  refine List.ext_getElem (by simp [firstValues]) fun i left right => ?_
  simp only [firstValues, List.getElem_set, List.getElem_map, List.getElem_range,
    Function.update_apply]
  exact if_congr eq_comm rfl rfl

theorem firstValues_getD (ys : List E) : firstValues ys.length (fun i => ys.getD i 0) = ys := by
  refine List.ext_getElem (length_firstValues ..) fun i left right => ?_
  simp only [firstValues, List.getElem_map, List.getElem_range]
  exact List.getD_eq_getElem _ _ right

section Passes

variable (lawful : f.Interpolates n)
include lawful

theorem InterpolationField.Interpolates.denominator_eq {k i : ℕ} (positive : 1 ≤ i) (low : i ≤ k)
    (inside : k < n) : f.newtonDenominator k i =
      (f.polyEvaluationPoint k - f.polyEvaluationPoint (k - i))⁻¹ :=
  eq_inv_of_mul_eq_one_left (lawful.denominator k i positive low inside)

theorem dividedDifference_values {i m : ℕ} (positive : 1 ≤ i) (low : i ≤ m) (inside : m < n) :
    dividedDifference f i (firstValues n (differencesFrom f.polyEvaluationPoint i (m + 1) A)) m =
      firstValues n (differencesFrom f.polyEvaluationPoint i m A) := by
  rw [dividedDifference, getD_firstValues inside, getD_firstValues (by omega), set_firstValues,
    lawful.denominator_eq positive low inside, differencesFrom_step (by omega)]

theorem dividedDifferences_values {i c : ℕ} (positive : 1 ≤ i) (inside : i + c ≤ n) :
    (List.range' i c).reverse.foldl (dividedDifference f i)
      (firstValues n (differencesFrom f.polyEvaluationPoint i (i + c) A)) =
        firstValues n (differences f.polyEvaluationPoint i A) := by
  induction c with
  | zero => rw [List.range'_zero, List.reverse_nil, List.foldl_nil, Nat.add_zero, differencesFrom_self]
  | succ c ih =>
    rw [List.range'_concat, List.reverse_append, List.reverse_singleton, List.singleton_append,
      List.foldl_cons, one_mul, ← Nat.add_assoc,
      dividedDifference_values lawful positive (Nat.le_add_right i c) (by omega), ih (by omega)]

/-- The passes from the one after `s` on. -/
theorem newtonPasses_values {s c : ℕ} (inside : s + c ≤ n - 1) :
    (List.range' (s + 1) c).foldl (fun evaluations i =>
        ((List.range evaluations.length).drop i).reverse.foldl (dividedDifference f i) evaluations)
        (firstValues n (table A f.polyEvaluationPoint s)) =
      firstValues n (table A f.polyEvaluationPoint (s + c)) := by
  induction c generalizing s with
  | zero => rfl
  | succ c ih =>
    have whole : firstValues n (table A f.polyEvaluationPoint s) = firstValues n
        (differencesFrom f.polyEvaluationPoint (s + 1) (s + 1 + (n - (s + 1)))
          (table A f.polyEvaluationPoint s)) :=
      firstValues_congr fun k below => (if_neg (by omega)).symm
    have pass : ((List.range n).drop (s + 1)).reverse.foldl (dividedDifference f (s + 1))
        (firstValues n (table A f.polyEvaluationPoint s)) =
          firstValues n (table A f.polyEvaluationPoint (s + 1)) := by
      rw [whole, List.range_eq_range', List.drop_range', Nat.zero_add, Nat.mul_one,
        dividedDifferences_values lawful (Nat.succ_pos s) (by omega)]
      rfl
    rw [List.range'_succ, List.foldl_cons, length_firstValues, pass, ih (by omega),
      Nat.add_right_comm, Nat.add_assoc]

/-- **The passes in place** are the table of divided differences. -/
theorem newtonOfLagrange_values :
    newtonOfLagrange f (firstValues n A) =
      firstValues n (table A f.polyEvaluationPoint (n - 1)) := by
  have passes := newtonPasses_values (A := A) lawful (s := 0) (c := n - 1) (by omega)
  rw [Nat.zero_add, Nat.zero_add] at passes
  rw [newtonOfLagrange, length_firstValues, List.range_eq_range', List.drop_range', Nat.zero_add,
    Nat.mul_one]
  exact passes

end Passes

/-! ### Horner's rule -/

section Horner

theorem hornerNewton_values (D : ℕ → E) (x : E) (i c : ℕ) :
    hornerNewton f x i (D i) ((List.range' (i + 1) c).map D) =
      newtonValue (i + 1 + c) D f.polyEvaluationPoint x i := by
  induction c generalizing i with
  | zero =>
    rw [List.range'_zero, List.map_nil, hornerNewton, newtonValue_succ (by omega)]
    simp [newtonValue]
  | succ c ih =>
    rw [List.range'_succ, List.map_cons, hornerNewton, ih, newtonValue_succ (i := i) (by omega),
      show i + 1 + 1 + c = i + 1 + (c + 1) by omega]
    ring

theorem newtonValue_table (lawful : f.Interpolates (n + 1)) (x : E) :
    newtonValue (n + 1) (table A f.polyEvaluationPoint n) f.polyEvaluationPoint x 0 =
      neville A f.polyEvaluationPoint x n 0 := by
  rw [← newton_eq_neville lawful.apart x (Nat.lt_succ_self n), newtonValue]
  refine Finset.sum_congr rfl fun t member => ?_
  simp only [Nat.zero_add]
  rw [table_diagonal (Nat.lt_succ_iff.mp (Finset.mem_range.mp member))]

theorem newtonValue_eq_eval (D X : ℕ → E) (x : E) : newtonValue n D X x 0 =
    (∑ t ∈ Finset.range n, Polynomial.C (D t) *
      ∏ u ∈ Finset.range t, (Polynomial.X - Polynomial.C (X u))).eval x := by
  simp [newtonValue, Polynomial.eval_finsetSum, Polynomial.eval_prod]

theorem degree_newton (D X : ℕ → E) :
    (∑ t ∈ Finset.range n, Polynomial.C (D t) *
      ∏ u ∈ Finset.range t, (Polynomial.X - Polynomial.C (X u))).degree < n := by
  rw [← Polynomial.mem_degreeLT]
  refine Submodule.sum_mem _ fun t member => ?_
  have size : (∏ u ∈ Finset.range t, (Polynomial.X - Polynomial.C (X u))).degree = (t : WithBot ℕ) := by
    simp [Polynomial.degree_prod]
  rw [Polynomial.C_mul']
  refine Submodule.smul_mem _ _ (Polynomial.mem_degreeLT.mpr ?_)
  rw [size]
  exact_mod_cast Finset.mem_range.mp member

/-- **Horner's rule on the divided differences** is the interpolating polynomial. -/
theorem evalNewton_values (lawful : f.Interpolates (n + 1)) (x : E) :
    evalNewton f (newtonOfLagrange f (firstValues (n + 1) A)) x =
      .ok ((Lagrange.interpolate (Finset.range (n + 1)) f.polyEvaluationPoint A).eval x) := by
  obtain ⟨D, isTable⟩ : ∃ D, D = table A f.polyEvaluationPoint n := ⟨_, rfl⟩
  have horner := hornerNewton_values (f := f) D x 0 n
  rw [Nat.zero_add, Nat.add_comm 1 n] at horner
  have list : firstValues (n + 1) D = D 0 :: (List.range' 1 n).map D := by
    rw [firstValues, List.range_eq_range', List.range'_succ, List.map_cons]
  have values : ∀ y, (∑ t ∈ Finset.range (n + 1), Polynomial.C (D t) *
      ∏ u ∈ Finset.range t, (Polynomial.X - Polynomial.C (f.polyEvaluationPoint u))).eval y =
        neville A f.polyEvaluationPoint y n 0 := fun y => by
    rw [← newtonValue_eq_eval, isTable, newtonValue_table lawful]
  have unique := Lagrange.eq_interpolate_of_eval_eq (s := Finset.range (n + 1))
    (v := f.polyEvaluationPoint) A
    (fun i left j right => lawful.apart i (by simpa using left) j (by simpa using right))
    (by rw [Finset.card_range]; exact degree_newton D f.polyEvaluationPoint)
    (fun m member => by
      rw [values, neville_point lawful.apart (by omega) (Nat.zero_le m)
        (by have := Finset.mem_range.mp member; omega)])
  rw [newtonOfLagrange_values lawful, Nat.add_sub_cancel, ← isTable, list, evalNewton, horner,
    newtonValue_eq_eval, unique]
  rfl

end Horner

/-! ### Lagrange coefficients -/

section Coefficients

theorem interpolate_unit (X : ℕ → E) {k : ℕ} (inside : k < n) :
    Lagrange.interpolate (Finset.range n) X (fun i => if i = k then 1 else 0) =
      Lagrange.basis (Finset.range n) X k := by
  rw [Lagrange.interpolate_apply, Finset.sum_eq_single k]
  · rw [if_pos rfl, Polynomial.C_1, one_mul]
  · intro i _ other
    rw [if_neg other, Polynomial.C_0, zero_mul]
  · exact fun outside => absurd (Finset.mem_range.mpr inside) outside

/-- **The Lagrange coefficients** of a point are the values of the basis polynomials there. -/
theorem coef_eq (lawful : f.Interpolates (n + 1)) (x : E) :
    LagrangeBasis.coef f (LagrangeBasis.new f (n + 1)) x = .ok (firstValues (n + 1) fun k =>
      (Lagrange.basis (Finset.range (n + 1)) f.polyEvaluationPoint k).eval x) := by
  rw [LagrangeBasis.coef, LagrangeBasis.new, List.mapM_map]
  refine mapM_eq_ok_map fun k member => ?_
  have value := evalNewton_values (A := fun i => if i = k then 1 else 0) lawful x
  rw [interpolate_unit _ (List.mem_range.mp member)] at value
  exact value

theorem dot_firstValues (A B : ℕ → E) :
    Lib.dot (firstValues n A) (firstValues n B) = ∑ k ∈ Finset.range n, A k * B k := by
  induction n with
  | zero => rfl
  | succ n ih =>
    have last : ∀ C : ℕ → E, firstValues (n + 1) C = firstValues n C ++ [C n] := fun C => by
      rw [firstValues, List.range_succ, List.map_append]
      rfl
    rw [last, last, dot_append (by rw [length_firstValues, length_firstValues]), ih,
      Finset.sum_range_succ, dot_cons, dot_nil_left, add_zero]

end Coefficients

/-! ### The three ways -/

/-- **The three ways agree**: divided differences and Horner's rule, the evaluation that does both,
and the inner product of the values with the Lagrange coefficients are the value of the polynomial
through the values. -/
theorem roundPoly_evaluations {f : InterpolationField E} {evaluations : List E}
    (nonempty : evaluations ≠ []) (lawful : f.Interpolates evaluations.length) (x : E) :
    evalNewton f (newtonOfLagrange f evaluations) x = .ok (interpolated f evaluations x) ∧
    evalLagrange f evaluations x = .ok (interpolated f evaluations x) ∧
    ∃ coefficients, LagrangeBasis.coef f (LagrangeBasis.new f evaluations.length) x =
        .ok coefficients ∧
      (Blas.dot evaluations coefficients : Exec String E) = .ok (interpolated f evaluations x) := by
  obtain ⟨n, size⟩ := Nat.exists_eq_succ_of_ne_zero
    (Nat.ne_of_gt (List.length_pos_iff.mpr nonempty))
  have listed := firstValues_getD evaluations
  rw [size] at listed lawful
  have newton : evalNewton f (newtonOfLagrange f evaluations) x =
      .ok (interpolated f evaluations x) := by
    have value := evalNewton_values (A := fun i => evaluations.getD i 0) lawful x
    rw [listed] at value
    rw [value, interpolated, size]
  refine ⟨newton, newton, _, by rw [size]; exact coef_eq lawful x, ?_⟩
  rw [Blas.dot_eq (by rw [length_firstValues, size]), interpolated, Lagrange.interpolate_apply,
    Polynomial.eval_finsetSum, size]
  nth_rewrite 1 [← listed]
  rw [dot_firstValues]
  simp only [Polynomial.eval_mul, Polynomial.eval_C, Nat.succ_eq_add_one]

/-! ### The points of the fields -/

/-- The points `0`, `1`, `2`, …, with the inverses of the distances. -/
def integerPoints (E : Type) [Field E] : InterpolationField E where
  polyEvaluationPoint i := i
  newtonDenominator _ i := (i : E)⁻¹

/-- **The integers** interpolate as far as the characteristic reaches. -/
theorem interpolates_integers {p : ℕ} [CharP E p] (reaches : p = 0 ∨ n ≤ p) :
    (integerPoints E).Interpolates n := by
  have nonzero : ∀ i, 1 ≤ i → i < n → (i : E) ≠ 0 := by
    intro i positive inside zero
    have divides := (CharP.cast_eq_zero_iff E p i).mp zero
    rcases reaches with rfl | reaches
    · have := Nat.eq_zero_of_zero_dvd divides
      omega
    · have := Nat.le_of_dvd positive divides
      omega
  have differ : ∀ i j, i < j → j < n → (i : E) ≠ j := by
    intro i j order inside same
    refine nonzero (j - i) (by omega) (by omega) ?_
    rw [Nat.cast_sub order.le, same, sub_self]
  refine ⟨fun i left j right same => ?_, fun k i positive low inside => ?_⟩
  · rcases Nat.lt_trichotomy i j with order | order | order
    · exact absurd same (differ i j order right)
    · exact order
    · exact absurd same.symm (differ j i order left)
  · show (i : E)⁻¹ * ((k : E) - ((k - i : ℕ) : E)) = 1
    rw [Nat.cast_sub low, sub_sub_cancel, inv_mul_cancel₀ (nonzero i positive (by omega))]

/-- Three values modulo 3. -/
theorem roundPoly_evaluations_three :
    evalNewton (integerPoints (ZMod 3)) (newtonOfLagrange (integerPoints (ZMod 3)) [2, 0, 1]) 2 =
      .ok (interpolated (integerPoints (ZMod 3)) [2, 0, 1] 2) ∧
    evalLagrange (integerPoints (ZMod 3)) [2, 0, 1] 2 =
      .ok (interpolated (integerPoints (ZMod 3)) [2, 0, 1] 2) ∧
    ∃ coefficients, LagrangeBasis.coef (integerPoints (ZMod 3))
        (LagrangeBasis.new (integerPoints (ZMod 3)) 3) 2 = .ok coefficients ∧
      (Blas.dot [2, 0, 1] coefficients : Exec String (ZMod 3)) =
        .ok (interpolated (integerPoints (ZMod 3)) [2, 0, 1] 2) :=
  roundPoly_evaluations (by simp) (interpolates_integers (.inr (le_refl 3))) 2

end Longfellow
