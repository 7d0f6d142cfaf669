/-
**Interpolation over the fields of circuits** (`compile/algebra/src/interpolation.rs`).

Divided differences and Horner's rule run in place over the coefficients. A difference is divided by
that of two points, so the points have to be apart.

* `monomialOfLagrange_asserts` — **the interpolation returns exactly on points that are apart.**
-/

import Longfellow.Gadget.Generator
import Longfellow.Lib.Exec
import Longfellow.Lib.Interpolation

set_option linter.unusedSectionVars false

namespace Longfellow.Gadget

open scoped BigOperators

open Lib Lib.Interpolation

/-- A field of a circuit with inverses. -/
class InvertibleField (E : Type) extends CompileField E where
  inverse : E → E
  mul_inverse : ∀ a : E, a ≠ 0 → a * inverse a = 1

instance (p : ℕ) [Fact p.Prime] : InvertibleField (ZMod p) where
  inverse a := a⁻¹
  mul_inverse _ nonzero := mul_inv_cancel₀ nonzero

namespace Gf2128Elt

/-- One squaring: what is multiplied so far, and the next square. -/
def squareStep (s : Gf2128Elt × Gf2128Elt) (i : ℕ) : Gf2128Elt × Gf2128Elt :=
  (if 0 < i then s.1 * s.2 else s.1, s.2 * s.2)

def inverse (a : Gf2128Elt) : Gf2128Elt := ((List.range 128).foldl squareStep (1, a)).1

theorem squarings (a : Gf2128Elt) (n : ℕ) :
    ((List.range (n + 1)).foldl squareStep (1, a)).1 * (a * a) = a ^ 2 ^ (n + 1) ∧
      ((List.range (n + 1)).foldl squareStep (1, a)).2 = a ^ 2 ^ (n + 1) := by
  induction n with
  | zero =>
    show 1 * (a * a) = a ^ 2 ∧ a * a = a ^ 2
    rw [one_mul, sq]
    exact ⟨rfl, rfl⟩
  | succ n ih =>
    have double : a ^ 2 ^ (n + 1 + 1) = a ^ 2 ^ (n + 1) * a ^ 2 ^ (n + 1) := by
      rw [← pow_add, ← two_mul, ← pow_succ']
    rw [List.range_succ, List.foldl_append, List.foldl_cons, List.foldl_nil, squareStep,
      if_pos (Nat.succ_pos n)]
    refine ⟨?_, by rw [ih.2, double]⟩
    rw [mul_right_comm, ih.1, ih.2, double]

theorem mul_inverse {a : Gf2128Elt} (nonzero : a ≠ 0) : a * inverse a = 1 := by
  have order : a ^ (2 ^ 128 - 1) = 1 := by
    obtain rfl | ⟨i, rfl⟩ := eq_zero_or_eq_pow a
    · exact absurd rfl nonzero
    · rw [← pow_mul, Nat.mul_comm, pow_mul, ← orderOf_generator, pow_orderOf_eq_one, one_pow]
  have loop : inverse a * (a * a) = a ^ 2 ^ 128 := (squarings a 127).1
  rw [← Nat.sub_add_cancel (show 1 ≤ 2 ^ 128 by decide), pow_succ, order, one_mul, ← mul_assoc] at loop
  exact (mul_comm _ _).trans ((isUnit_of_ne_zero nonzero).mul_left_injective
    (show inverse a * a * a = 1 * a by rw [loop, one_mul]))

instance : InvertibleField Gf2128Elt where
  inverse := inverse
  mul_inverse _ nonzero := mul_inverse nonzero

end Gf2128Elt

namespace Interpolation

variable {E : Type} [InvertibleField E] [DecidableEq E] {n : ℕ} {X : ℕ → E}

/-! ### The loops -/

def invert (a : E) : Exec String E := do
  ensure (a ≠ 0) "cannot invert zero"
  return InvertibleField.inverse a

/-- One cell of a pass of divided differences. -/
def newtonCell (x : List E) (i : ℕ) (coeffs : List E) (k : ℕ) : Exec String (List E) := do
  let dx := (← getAt x k) - (← getAt x (k - i))
  setAt coeffs k ((← invert dx) * ((← getAt coeffs k) - (← getAt coeffs (k - 1))))

def newtonOfLagrange (a x : List E) : Exec String (List E) := do
  ensure (a.length = x.length) "assertion `left == right` failed"
  let n := a.length
  if n = 0 then return []
  (List.range' 1 (n - 1)).foldlM (fun coeffs i =>
    (List.range' i (n - i)).reverse.foldlM (newtonCell x i) coeffs) a

/-- One cell of a pass of Horner's rule. -/
def hornerCell (x : List E) (i : ℕ) (coeffs : List E) (k : ℕ) : Exec String (List E) := do
  let term := (← getAt coeffs k) * (← getAt x i)
  setAt coeffs (k - 1) ((← getAt coeffs (k - 1)) - term)

def monomialOfNewton (a x : List E) : Exec String (List E) := do
  ensure (a.length = x.length) "assertion `left == right` failed"
  let n := a.length
  (List.range n).reverse.foldlM (fun coeffs i =>
    (List.range' (i + 1) (n - (i + 1))).foldlM (hornerCell x i) coeffs) a

def monomialOfLagrange (l x : List E) : Exec String (List E) := do
  monomialOfNewton (← newtonOfLagrange l x) x

/-! ### Cells -/

/-- The field that the inverses make. -/
@[reducible]
def field : Field E where
  inv a := if a = 0 then 0 else InvertibleField.inverse a
  mul_inv_cancel a nonzero := by
    rw [if_neg nonzero]
    exact InvertibleField.mul_inverse a nonzero
  inv_zero := if_pos rfl
  exists_pair_ne := ⟨1, 0, CompileField.one_ne_zero⟩
  nnqsmul := _
  nnqsmul_def _ _ := rfl
  qsmul := _
  qsmul_def _ _ := rfl

/-- The points are apart. -/
def Apart (n : ℕ) (X : ℕ → E) : Prop := ∀ i < n, ∀ j < n, X i = X j → i = j

section Cells

local instance cellField : Field E := field

theorem invert_asserts (a : E) : Asserts (invert a) (a ≠ 0) a⁻¹ := by
  by_cases zero : a = 0
  · refine ⟨fun nonzero => absurd zero nonzero, fun _ => ⟨"cannot invert zero", ?_⟩⟩
    rw [invert, ensure, if_neg (not_not.mpr zero)]
    rfl
  · refine ⟨fun _ => ?_, fun nonzero => absurd zero nonzero⟩
    rw [invert, ensure_of zero]
    exact congrArg Except.ok (if_neg zero).symm

/-- The cells of some values. -/
def cells (n : ℕ) (A : ℕ → E) : List E := (List.range n).map A

@[simp] theorem length_cells (n : ℕ) (A : ℕ → E) : (cells n A).length = n := by
  rw [cells, List.length_map, List.length_range]

theorem cells_congr {A A' : ℕ → E} (same : ∀ k < n, A k = A' k) : cells n A = cells n A' :=
  List.map_congr_left fun k member => same k (List.mem_range.mp member)

theorem getAt_cells {k : ℕ} (inside : k < n) (A : ℕ → E) :
    (getAt (cells n A) k : Exec String E) = .ok (A k) := by
  rw [getAt_eq_ok, cells, List.getElem?_map, List.getElem?_range inside, Option.map_some]

theorem setAt_cells {k : ℕ} (inside : k < n) (A : ℕ → E) (v : E) :
    (setAt (cells n A) k v : Exec String (List E)) = .ok (cells n (Function.update A k v)) := by
  rw [setAt_of_lt (by rwa [length_cells])]
  congr 1
  refine List.ext_getElem (by simp) fun i left right => ?_
  simp only [cells, List.getElem_set, List.getElem_map, List.getElem_range, Function.update_apply]
  exact if_congr eq_comm rfl rfl

variable {i : ℕ} {A : ℕ → E}

/-! ### Divided differences -/

theorem newtonCell_asserts {m : ℕ} (low : i ≤ m) (positive : 0 < i) (inside : m < n) :
    Asserts (newtonCell (cells n X) i (cells n (differencesFrom X i (m + 1) A)) m)
      (X m - X (m - i) ≠ 0) (cells n (differencesFrom X i m A)) := by
  rw [newtonCell, getAt_cells inside, ok_bind, getAt_cells (by omega), ok_bind]
  refine (invert_asserts _).andThen ?_
  rw [getAt_cells inside, ok_bind, getAt_cells (by omega), ok_bind, setAt_cells inside, mul_comm,
    differencesFrom_step (by omega)]

theorem newtonPass_asserts (positive : 0 < i) {c : ℕ} (inside : i + c ≤ n) :
    Asserts ((List.range' i c).reverse.foldlM (newtonCell (cells n X) i)
        (cells n (differencesFrom X i (i + c) A)))
      (∀ k, i ≤ k → k < i + c → X k - X (k - i) ≠ 0) (cells n (differences X i A)) := by
  induction c with
  | zero =>
    rw [List.range'_zero, List.reverse_nil, List.foldlM_nil, Nat.add_zero, differencesFrom_self]
    exact (asserts_pure _).congr (iff_of_true trivial fun k low high => by omega)
  | succ c ih =>
    rw [List.range'_concat, List.reverse_append, List.reverse_singleton, List.singleton_append,
      List.foldlM_cons, one_mul]
    refine ((newtonCell_asserts (Nat.le_add_right i c) positive (by omega)).bind
      fun _ => ih (by omega)).congr ⟨fun apart k low high => ?_, fun all =>
        ⟨all _ (by omega) (by omega), fun k low high => all k low (by omega)⟩⟩
    by_cases here : k = i + c
    · exact here ▸ apart.1
    · exact apart.2 k low (by omega)

theorem newtonPasses_asserts {s c : ℕ} (inside : s + c ≤ n - 1) :
    Asserts ((List.range' (s + 1) c).foldlM (fun coeffs i =>
        (List.range' i (n - i)).reverse.foldlM (newtonCell (cells n X) i) coeffs)
        (cells n (table A X s)))
      (∀ i, s < i → i ≤ s + c → ∀ k, i ≤ k → k < n → X k - X (k - i) ≠ 0)
      (cells n (table A X (s + c))) := by
  induction c generalizing s with
  | zero =>
    rw [List.range'_zero, List.foldlM_nil]
    exact (asserts_pure _).congr (iff_of_true trivial fun i low high => by omega)
  | succ c ih =>
    rw [List.range'_succ, List.foldlM_cons, show s + (c + 1) = s + 1 + c by omega]
    have first := newtonPass_asserts (n := n) (X := X) (A := table A X s) (Nat.succ_pos s)
      (c := n - (s + 1)) (by omega)
    have whole : cells n (differencesFrom X (s + 1) n (table A X s)) = cells n (table A X s) :=
      cells_congr fun k inside => if_neg (by omega)
    rw [Nat.succ_eq_add_one, Nat.add_sub_cancel' (show s + 1 ≤ n by omega), whole] at first
    refine (first.bind fun _ => ih (s := s + 1) (by omega)).congr
      ⟨fun apart i low high k => ?_, fun all => ⟨all _ (by omega) (by omega),
        fun i low high => all i (by omega) (by omega)⟩⟩
    by_cases same : i = s + 1
    · exact same ▸ apart.1 k
    · exact apart.2 i (by omega) (by omega) k

theorem apart_iff : Apart n X ↔
    ∀ i, 0 < i → i ≤ n - 1 → ∀ k, i ≤ k → k < n → X k - X (k - i) ≠ 0 := by
  refine ⟨fun apart i positive _ k low inside zero => ?_, fun differ => ?_⟩
  · have same := apart k inside (k - i) (by omega) (sub_eq_zero.mp zero)
    omega
  · have below : ∀ i j, i < j → j < n → X i ≠ X j := by
      intro i j order inside same
      refine differ (j - i) (by omega) (by omega) j (by omega) inside ?_
      rw [Nat.sub_sub_self order.le, same, sub_self]
    intro i left j right same
    rcases Nat.lt_trichotomy i j with order | order | order
    · exact absurd same (below i j order right)
    · exact order
    · exact absurd same.symm (below j i order left)

theorem newtonOfLagrange_asserts (n : ℕ) (A X : ℕ → E) :
    Asserts (Interpolation.newtonOfLagrange (cells n A) (cells n X)) (Apart n X)
      (cells n (Lib.Interpolation.newtonOfLagrange n A X)) := by
  rw [Interpolation.newtonOfLagrange, ensure_of (by rw [length_cells, length_cells]), ok_bind,
    length_cells]
  by_cases none : n = 0
  · subst none
    exact (asserts_pure _).congr (iff_of_true trivial fun i inside => by omega)
  · rw [if_neg none, newtonOfLagrange_eq]
    have passes := newtonPasses_asserts (n := n) (A := A) (X := X) (s := 0) (c := n - 1) (by omega)
    simp only [Nat.zero_add] at passes
    exact passes.congr apart_iff.symm

/-! ### Horner's rule -/

theorem hornerPass_returns {m c : ℕ} (above : i < m) (inside : m + c ≤ n) (point : i < n) :
    (List.range' m c).foldlM (hornerCell (cells n X) i) (cells n (hornerPass m X i A)) =
      .ok (cells n (hornerPass (m + c) X i A)) := by
  induction c generalizing m with
  | zero => rfl
  | succ c ih =>
    rw [List.range'_succ, List.foldlM_cons, hornerCell, getAt_cells (by omega), ok_bind,
      getAt_cells point, ok_bind, getAt_cells (by omega), ok_bind, setAt_cells (by omega),
      hornerPass_succ above, ok_bind, ih (by omega) (by omega), Nat.add_right_comm]
    rfl

theorem hornerPasses_returns {c : ℕ} (inside : c ≤ n) :
    (List.range c).reverse.foldlM (fun coeffs i =>
      (List.range' (i + 1) (n - (i + 1))).foldlM (hornerCell (cells n X) i) coeffs) (cells n A) =
        .ok (cells n (hornerPasses n X c A)) := by
  induction c generalizing A with
  | zero => rfl
  | succ c ih =>
    have pass := hornerPass_returns (n := n) (X := X) (A := A) (Nat.lt_succ_self c)
      (c := n - (c + 1)) (by omega) (by omega)
    rw [hornerPass_none, Nat.add_sub_cancel' inside] at pass
    rw [List.range_succ, List.reverse_append, List.reverse_singleton, List.singleton_append,
      List.foldlM_cons, pass, ok_bind, ih (by omega), hornerPasses]

theorem monomialOfNewton_returns (n : ℕ) (A X : ℕ → E) :
    Interpolation.monomialOfNewton (cells n A) (cells n X) =
      .ok (cells n (Lib.Interpolation.monomialOfNewton n A X)) := by
  rw [Interpolation.monomialOfNewton, ensure_of (by rw [length_cells, length_cells]), ok_bind,
    length_cells]
  exact hornerPasses_returns le_rfl

/-- **The interpolation returns exactly on points that are apart.** -/
theorem monomialOfLagrange_asserts (n : ℕ) (A X : ℕ → E) :
    Asserts (Interpolation.monomialOfLagrange (cells n A) (cells n X)) (Apart n X)
      (cells n (Lib.Interpolation.monomialOfLagrange n A X)) :=
  (newtonOfLagrange_asserts n A X).andThen (monomialOfNewton_returns n _ X)

end Cells

/-! ### The polynomials of the points -/

/-- The coefficient of a power in the polynomial that is one at the `k`-th point. -/
def basisCoefficient (m : ℕ) (X : ℕ → E) (k t : ℕ) : E :=
  letI : Field E := field
  Lib.Interpolation.monomialOfLagrange m (fun i => if i = k then 1 else 0) X t

theorem monomialOfLagrange_single_asserts (m k : ℕ) (X : ℕ → E) :
    Asserts (Interpolation.monomialOfLagrange (cells m fun i => if i = k then 1 else 0) (cells m X))
      (Apart m X) (cells m (basisCoefficient m X k)) := monomialOfLagrange_asserts m _ X

/-- The coefficient of a power in the polynomial with some values at the points. -/
def coefficient (m : ℕ) (X v : ℕ → E) (t : ℕ) : E :=
  ∑ k ∈ Finset.range m, basisCoefficient m X k t * v k

/-- **The polynomial has the values at the points.** -/
theorem eval_coefficient {m : ℕ} (apart : Apart m X) (v : ℕ → E) {i : ℕ}
    (inside : i < m) : ∑ t ∈ Finset.range m, coefficient m X v t * X i ^ t = v i :=
  letI : Field E := field
  eval_combination apart v inside

/-- **A polynomial that is zero at all points but the last** is zero at no other elements. -/
theorem eval_coefficient_eq_zero_iff (apart : Apart (n + 1) X) {v : ℕ → E}
    (zeros : ∀ i < n, v i = 0) (last : v n ≠ 0) (x : E) :
    ∑ t ∈ Finset.range (n + 1), coefficient (n + 1) X v t * x ^ t = 0 ↔ ∃ i < n, x = X i := by
  let : Field E := field
  refine sum_eq_zero_iff apart (fun i inside => ?_) ?_ x
  · exact (eval_coefficient apart v (by omega)).trans (zeros i inside)
  · exact fun zero => last ((eval_coefficient apart v (by omega)).symm.trans zero)

end Interpolation

end Longfellow.Gadget
