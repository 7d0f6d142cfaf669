/-
**Interpolation in two passes.**

A polynomial is found from its values at `N` points: divided differences give its coefficients in
the basis of Newton, and Horner's rule, pass by pass, those of the powers.

* `eval_monomialOfLagrange` — **the interpolated polynomial has the values it is made from**.
-/

import Mathlib.LinearAlgebra.Lagrange
import Mathlib.Tactic.LinearCombination

namespace Lib.Interpolation

open scoped BigOperators

variable {E : Type} [Field E]

/-- A pass of divided differences, over points `i` apart. -/
def differences (X : ℕ → E) (i : ℕ) (A : ℕ → E) : ℕ → E := fun k =>
  if i ≤ k then (A k - A (k - 1)) * (X k - X (k - i))⁻¹ else A k

/-- The values turned into coefficients in the basis of Newton. -/
def newtonOfLagrange (N : ℕ) (A X : ℕ → E) : ℕ → E :=
  (List.range (N - 1)).foldl (fun A i => differences X (i + 1) A) A

/-- A pass of Horner's rule: the coefficients from `i` on are multiplied by `x - X i`. -/
def hornerPass (N : ℕ) (X : ℕ → E) (i : ℕ) (A : ℕ → E) : ℕ → E := fun k =>
  if i ≤ k ∧ k + 1 < N then A k - A (k + 1) * X i else A k

/-- The passes at `i - 1`, …, `0`. -/
def hornerPasses (N : ℕ) (X : ℕ → E) : ℕ → (ℕ → E) → ℕ → E
  | 0, A => A
  | i + 1, A => hornerPasses N X i (hornerPass N X i A)

/-- The coefficients in the basis of Newton turned into those of the powers. -/
def monomialOfNewton (N : ℕ) (A X : ℕ → E) : ℕ → E := hornerPasses N X N A

def monomialOfLagrange (N : ℕ) (L X : ℕ → E) : ℕ → E :=
  monomialOfNewton N (newtonOfLagrange N L X) X

/-- The table of divided differences, pass by pass. -/
def table (A X : ℕ → E) : ℕ → ℕ → E
  | 0 => A
  | i + 1 => differences X (i + 1) (table A X i)

theorem newtonOfLagrange_eq (N : ℕ) (A X : ℕ → E) : newtonOfLagrange N A X = table A X (N - 1) := by
  unfold newtonOfLagrange
  induction N - 1 with
  | zero => rfl
  | succ n ih => rw [List.range_succ, List.foldl_append, ih]; rfl

theorem table_diagonal {A X : ℕ → E} {k n : ℕ} (later : k ≤ n) : table A X n k = table A X k k := by
  induction n, later using Nat.le_induction with
  | base => rfl
  | succ n reached ih =>
    rw [table, differences, if_neg (by omega)]
    exact ih

/-- The value at `x` of the polynomial through the points `s`, …, `s + i`, as Neville has it. -/
def neville (A X : ℕ → E) (x : E) : ℕ → ℕ → E
  | 0, s => A s
  | i + 1, s => ((x - X s) * neville A X x i (s + 1) - (x - X (s + i + 1)) * neville A X x i s) *
      (X (s + i + 1) - X s)⁻¹

variable {A X : ℕ → E} {N : ℕ}

variable {i m : ℕ} {x : E}

section

variable (apart : ∀ i < N, ∀ j < N, X i = X j → i = j)
include apart

theorem neville_point {s : ℕ} (inside : s + i < N) (first : s ≤ m) (last : m ≤ s + i) :
    neville A X (X m) i s = A m := by
  induction i generalizing s with
  | zero =>
    obtain rfl : m = s := by omega
    rfl
  | succ i ih =>
    have differ : X (s + i + 1) - X s ≠ 0 := by
      intro zero
      have := apart (s + i + 1) (by omega) s (by omega) (sub_eq_zero.mp zero)
      omega
    rw [neville]
    by_cases start : m = s
    · subst start
      rw [ih (by omega) le_rfl (by omega), sub_self, zero_mul]
      field_simp
      ring
    by_cases stop : m = s + i + 1
    · subst stop
      rw [ih (s := s + 1) (by omega) (by omega) (by omega), sub_self, zero_mul, sub_zero]
      field_simp
    · rw [ih (s := s + 1) (by omega) (by omega) (by omega), ih (by omega) (by omega) (by omega)]
      field_simp
      ring

theorem neville_succ_sub (x : E) {s : ℕ} (inside : s + i + 1 < N) :
    neville A X x i (s + 1) - neville A X x i s =
      (table A X i (s + i + 1) - table A X i (s + i)) * ∏ t ∈ Finset.range i, (x - X (s + 1 + t)) := by
  induction i generalizing s with
  | zero => rw [Finset.prod_range_zero, mul_one]; rfl
  | succ i ih =>
    have front := ih (s := s) (by omega)
    have back := ih (s := s + 1) (by omega)
    have differ : X (s + i + 1) - X s ≠ 0 := by
      intro zero
      have := apart (s + i + 1) (by omega) s (by omega) (sub_eq_zero.mp zero)
      omega
    have differ' : X (s + 1 + i + 1) - X (s + 1) ≠ 0 := by
      intro zero
      have := apart (s + 1 + i + 1) (by omega) (s + 1) (by omega) (sub_eq_zero.mp zero)
      omega
    -- Both sides of the difference are taken to the common neighbour.
    have up : neville A X x (i + 1) (s + 1) - neville A X x i (s + 1) =
        (x - X (s + 1)) * (X (s + 1 + i + 1) - X (s + 1))⁻¹ *
          (neville A X x i (s + 1 + 1) - neville A X x i (s + 1)) := by
      rw [neville]
      field_simp
      ring
    have down : neville A X x (i + 1) s - neville A X x i (s + 1) =
        (x - X (s + i + 1)) * (X (s + i + 1) - X s)⁻¹ *
          (neville A X x i (s + 1) - neville A X x i s) := by
      rw [neville]
      field_simp
      ring
    have entry : table A X (i + 1) (s + 1 + i + 1) =
        (table A X i (s + 1 + i + 1) - table A X i (s + 1 + i)) *
          (X (s + 1 + i + 1) - X (s + 1))⁻¹ := by
      rw [table, differences, if_pos (by omega), show s + 1 + i + 1 - (i + 1) = s + 1 by omega,
        Nat.add_sub_cancel]
    have entry' : table A X (i + 1) (s + i + 1) =
        (table A X i (s + i + 1) - table A X i (s + i)) * (X (s + i + 1) - X s)⁻¹ := by
      rw [table, differences, if_pos (by omega), show s + i + 1 - (i + 1) = s by omega,
        Nat.add_sub_cancel]
    have split : ∏ t ∈ Finset.range (i + 1), (x - X (s + 1 + t)) =
        (x - X (s + 1)) * ∏ t ∈ Finset.range i, (x - X (s + 1 + 1 + t)) := by
      rw [Finset.prod_range_succ', mul_comm]
      congr 1
      exact Finset.prod_congr rfl fun t _ => by rw [Nat.add_assoc (s + 1) 1 t, Nat.add_comm 1 t]
    have split' : ∏ t ∈ Finset.range (i + 1), (x - X (s + 1 + t)) =
        (∏ t ∈ Finset.range i, (x - X (s + 1 + t))) * (x - X (s + i + 1)) := by
      rw [Finset.prod_range_succ]
      congr 3
      omega
    have indices : s + (i + 1) = s + i + 1 ∧ s + i + 1 + 1 = s + 1 + i + 1 := by omega
    calc neville A X x (i + 1) (s + 1) - neville A X x (i + 1) s
        = (neville A X x (i + 1) (s + 1) - neville A X x i (s + 1)) -
            (neville A X x (i + 1) s - neville A X x i (s + 1)) := by ring
      _ = table A X (i + 1) (s + 1 + i + 1) * ∏ t ∈ Finset.range (i + 1), (x - X (s + 1 + t)) -
            table A X (i + 1) (s + i + 1) * ∏ t ∈ Finset.range (i + 1), (x - X (s + 1 + t)) := by
          rw [up, down, front, back, entry, entry']
          congr 1
          · rw [split]; ring
          · rw [split']; ring
      _ = _ := by rw [indices.1, indices.2]; ring

/-- **The form of Newton is the polynomial through the points.** -/
theorem newton_eq_neville (x : E) {n : ℕ} (inside : n < N) :
    ∑ i ∈ Finset.range (n + 1), table A X i i * ∏ t ∈ Finset.range i, (x - X t) =
      neville A X x n 0 := by
  induction n with
  | zero => simp [table, neville]
  | succ n ih =>
    have differ : X (n + 1) - X 0 ≠ 0 := by
      intro zero
      have := apart (n + 1) (by omega) 0 (by omega) (sub_eq_zero.mp zero)
      omega
    have step := neville_succ_sub (A := A) apart x (i := n) (s := 0) (by omega)
    simp only [Nat.zero_add] at step
    have entry : table A X (n + 1) (n + 1) =
        (table A X n (n + 1) - table A X n n) * (X (n + 1) - X 0)⁻¹ := by
      rw [table, differences, if_pos le_rfl, Nat.sub_self, Nat.add_sub_cancel]
    have split : ∏ t ∈ Finset.range (n + 1), (x - X t) =
        (x - X 0) * ∏ t ∈ Finset.range n, (x - X (1 + t)) := by
      rw [Finset.prod_range_succ', mul_comm]
      congr 1
      exact Finset.prod_congr rfl fun t _ => by rw [Nat.add_comm]
    have last : neville A X x (n + 1) 0 - neville A X x n 0 =
        (x - X 0) * (X (n + 1) - X 0)⁻¹ * (neville A X x n 1 - neville A X x n 0) := by
      rw [neville]
      simp only [Nat.zero_add]
      field_simp
      ring
    rw [Finset.sum_range_succ, ih (by omega), entry, split]
    linear_combination (-1) * last - (x - X 0) * (X (n + 1) - X 0)⁻¹ * step

end

/-- The value of the coefficients from `i` on. -/
def tailValue (N : ℕ) (A : ℕ → E) (x : E) (i : ℕ) : E :=
  ∑ t ∈ Finset.range (N - i), A (i + t) * x ^ t

theorem tailValue_succ (inside : i < N) :
    tailValue N A x i = A i + x * tailValue N A x (i + 1) := by
  unfold tailValue
  rw [show N - i = N - (i + 1) + 1 by omega, Finset.sum_range_succ', Nat.add_zero, pow_zero, mul_one,
    add_comm, Finset.mul_sum]
  congr 1
  refine Finset.sum_congr rfl fun t _ => ?_
  rw [pow_succ, show i + (t + 1) = i + 1 + t by omega]
  ring

theorem tailValue_hornerPass (inside : i < N) :
    tailValue N (hornerPass N X i A) x i = A i + (x - X i) * tailValue N A x (i + 1) := by
  have split : tailValue N (hornerPass N X i A) x i =
      tailValue N A x i - X i * tailValue N A x (i + 1) := by
    unfold tailValue
    rw [show N - i = N - (i + 1) + 1 by omega, Finset.sum_range_succ, Finset.sum_range_succ,
      Finset.mul_sum, add_sub_right_comm, ← Finset.sum_sub_distrib]
    congr 1
    · refine Finset.sum_congr rfl fun t member => ?_
      have := Finset.mem_range.mp member
      rw [hornerPass, if_pos (by omega), show i + t + 1 = i + 1 + t by omega]
      ring
    · rw [hornerPass, if_neg (by omega)]
  rw [split, tailValue_succ inside]
  ring

theorem hornerPass_below {k : ℕ} (low : k < i) : hornerPass N X i A k = A k := by
  rw [hornerPass, if_neg (by omega)]

/-- The value of the form of Newton, from `i` on. -/
def newtonValue (N : ℕ) (A X : ℕ → E) (x : E) (i : ℕ) : E :=
  ∑ t ∈ Finset.range (N - i), A (i + t) * ∏ u ∈ Finset.range t, (x - X (i + u))

theorem newtonValue_succ (inside : i < N) :
    newtonValue N A X x i = A i + (x - X i) * newtonValue N A X x (i + 1) := by
  unfold newtonValue
  rw [show N - i = N - (i + 1) + 1 by omega, Finset.sum_range_succ', Nat.add_zero,
    Finset.prod_range_zero, mul_one, add_comm, Finset.mul_sum]
  congr 1
  refine Finset.sum_congr rfl fun t _ => ?_
  rw [Finset.prod_range_succ', Nat.add_zero, show i + (t + 1) = i + 1 + t by omega]
  have shifted : ∏ u ∈ Finset.range t, (x - X (i + (u + 1))) =
      ∏ u ∈ Finset.range t, (x - X (i + 1 + u)) :=
    Finset.prod_congr rfl fun u _ => by rw [show i + (u + 1) = i + 1 + u by omega]
  rw [shifted, ← mul_assoc, mul_comm]
  rfl

theorem tailValue_hornerPasses (inside : i ≤ N) {D : ℕ → E} (low : ∀ k < i, A k = D k)
    (high : tailValue N A x i = newtonValue N D X x i) :
    tailValue N (hornerPasses N X i A) x 0 = newtonValue N D X x 0 := by
  induction i generalizing A with
  | zero => exact high
  | succ i ih =>
    refine ih (by omega) (fun k below => ?_) ?_
    · rw [hornerPass_below below, low k (by omega)]
    · rw [tailValue_hornerPass inside, high, low i (Nat.lt_succ_self i), ← newtonValue_succ inside]

theorem eval_monomialOfNewton (D : ℕ → E) (x : E) :
    ∑ t ∈ Finset.range N, monomialOfNewton N D X t * x ^ t =
      ∑ t ∈ Finset.range N, D t * ∏ u ∈ Finset.range t, (x - X u) := by
  have passes := tailValue_hornerPasses (A := D) (X := X) (x := x) (le_refl N) (fun _ _ => rfl) (by
    rw [tailValue, newtonValue, Nat.sub_self, Finset.sum_range_zero, Finset.sum_range_zero])
  simpa only [tailValue, newtonValue, Nat.sub_zero, Nat.zero_add, monomialOfNewton] using passes

section

variable (apart : ∀ i < N, ∀ j < N, X i = X j → i = j)
include apart

/-- **The interpolated polynomial has the values it is made from.** -/
theorem eval_monomialOfLagrange (inside : m < N) :
    ∑ t ∈ Finset.range N, monomialOfLagrange N A X t * X m ^ t = A m := by
  obtain ⟨n, rfl⟩ := Nat.exists_eq_succ_of_ne_zero (show N ≠ 0 by omega)
  rw [monomialOfLagrange, eval_monomialOfNewton, newtonOfLagrange_eq]
  have diagonal : ∀ t ∈ Finset.range (n + 1),
      table A X (n + 1 - 1) t * ∏ u ∈ Finset.range t, (X m - X u) =
        table A X t t * ∏ u ∈ Finset.range t, (X m - X u) := by
    intro t member
    have := Finset.mem_range.mp member
    rw [table_diagonal (by omega)]
  rw [Finset.sum_congr rfl diagonal, newton_eq_neville apart _ (Nat.lt_succ_self n),
    neville_point apart (by omega) (Nat.zero_le m) (by omega)]

/-- The polynomial of one point among the points. -/
theorem eval_monomialOfLagrange_single {k : ℕ} (inside : m < N) :
    ∑ t ∈ Finset.range N, monomialOfLagrange N (fun i => if i = k then 1 else 0) X t * X m ^ t =
      if m = k then 1 else 0 := eval_monomialOfLagrange apart inside

/-- **The combination of the polynomials of the points** has the values it combines them with. -/
theorem eval_combination (v : ℕ → E) (inside : m < N) :
    ∑ t ∈ Finset.range N, (∑ k ∈ Finset.range N,
      monomialOfLagrange N (fun i => if i = k then 1 else 0) X t * v k) * X m ^ t = v m := by
  calc _ = ∑ k ∈ Finset.range N, (∑ t ∈ Finset.range N,
        monomialOfLagrange N (fun i => if i = k then 1 else 0) X t * X m ^ t) * v k := by
        simp only [Finset.sum_mul]
        rw [Finset.sum_comm]
        exact Finset.sum_congr rfl fun k _ => Finset.sum_congr rfl fun t _ => by ring
    _ = ∑ k ∈ Finset.range N, (if m = k then 1 else 0) * v k :=
        Finset.sum_congr rfl fun k _ => by rw [eval_monomialOfLagrange_single apart inside]
    _ = v m := by simp [inside]

end

/-- **A polynomial that vanishes at all points but one has no other roots.** -/
theorem sum_eq_zero_iff {n : ℕ} (apart : ∀ i < n + 1, ∀ j < n + 1, X i = X j → i = j) {c : ℕ → E}
    (roots : ∀ i < n, ∑ t ∈ Finset.range (n + 1), c t * X i ^ t = 0)
    (last : ∑ t ∈ Finset.range (n + 1), c t * X n ^ t ≠ 0) (x : E) :
    ∑ t ∈ Finset.range (n + 1), c t * x ^ t = 0 ↔ ∃ i < n, x = X i := by
  classical
  refine ⟨fun root => ?_, fun ⟨i, inside, same⟩ => same ▸ roots i inside⟩
  by_contra other
  push Not at other
  let p : Polynomial E := ∑ t ∈ Finset.range (n + 1), Polynomial.C (c t) * Polynomial.X ^ t
  have eval : ∀ y, p.eval y = ∑ t ∈ Finset.range (n + 1), c t * y ^ t := by
    intro y
    simp [p, Polynomial.eval_finsetSum]
  have low : p.degree < n + 1 := by
    refine lt_of_le_of_lt (Polynomial.degree_sum_le _ _) ?_
    refine (Finset.sup_lt_iff (by exact WithBot.bot_lt_coe _)).mpr fun t member => ?_
    refine lt_of_le_of_lt (Polynomial.degree_C_mul_X_pow_le t (c t)) ?_
    exact_mod_cast Finset.mem_range.mp member
  -- Another root would be one more than the degree allows.
  let points : Finset E := insert x ((Finset.range n).image X)
  have count : points.card = n + 1 := by
    rw [Finset.card_insert_of_notMem, Finset.card_image_of_injOn, Finset.card_range]
    · intro i left j right same
      have first := Finset.mem_range.mp left
      have second := Finset.mem_range.mp right
      exact apart i (by omega) j (by omega) same
    · intro member
      obtain ⟨i, inside, same⟩ := Finset.mem_image.mp member
      exact other i (Finset.mem_range.mp inside) same.symm
  have vanishes : p = 0 := by
    refine Polynomial.eq_zero_of_degree_lt_of_eval_finset_eq_zero points (by rw [count]; exact low)
      fun y member => ?_
    rw [eval]
    rcases Finset.mem_insert.mp member with rfl | old
    · exact root
    · obtain ⟨i, inside, rfl⟩ := Finset.mem_image.mp old
      exact roots i (Finset.mem_range.mp inside)
  exact last (by rw [← eval, vanishes, Polynomial.eval_zero])

/-! ### Passes in place -/

/-- A pass of divided differences that has come down to `m`. -/
def differencesFrom (X : ℕ → E) (i m : ℕ) (A : ℕ → E) : ℕ → E := fun k =>
  if m ≤ k then (A k - A (k - 1)) * (X k - X (k - i))⁻¹ else A k

theorem differencesFrom_self (X : ℕ → E) (i : ℕ) (A : ℕ → E) :
    differencesFrom X i i A = differences X i A := rfl

/-- The cell below is changed by its old neighbours. -/
theorem differencesFrom_step (lower : 0 < m) :
    Function.update (differencesFrom X i (m + 1) A) m
      ((differencesFrom X i (m + 1) A m - differencesFrom X i (m + 1) A (m - 1)) *
        (X m - X (m - i))⁻¹) = differencesFrom X i m A := by
  funext k
  by_cases here : k = m
  · subst here
    rw [Function.update_self, differencesFrom, differencesFrom, differencesFrom,
      if_neg (by omega), if_neg (by omega), if_pos le_rfl]
  · rw [Function.update_of_ne here, differencesFrom, differencesFrom]
    exact if_congr (by omega) rfl rfl

theorem hornerPass_succ (above : i < m) :
    Function.update (hornerPass m X i A) (m - 1)
      (hornerPass m X i A (m - 1) - hornerPass m X i A m * X i) = hornerPass (m + 1) X i A := by
  funext k
  by_cases here : k = m - 1
  · subst here
    rw [Function.update_self, hornerPass, hornerPass, hornerPass, if_neg (by omega),
      if_neg (by omega), if_pos (by omega), Nat.sub_add_cancel (by omega)]
  · rw [Function.update_of_ne here, hornerPass, hornerPass]
    exact if_congr (by omega) rfl rfl

theorem hornerPass_none : hornerPass (i + 1) X i A = A := by
  funext k
  rw [hornerPass, if_neg (by omega)]

end Lib.Interpolation
