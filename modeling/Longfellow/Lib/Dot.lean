/-
**Inner products of arrays.**

An array that a loop fills by `x[i] += d` is used through its inner products only. `dot` is the
inner product of two lists, and the rules say how it changes with one entry, under sums and
multiples, and when a variable is bound:

* `dot_set_add` — **adding to one entry** adds to the inner product.
-/

import Longfellow.Lib.Exec
import Mathlib.Algebra.BigOperators.Group.List.Basic
import Mathlib.Tactic.Ring

namespace Lib

variable {R : Type} [CommRing R]

/-- The inner product of two lists. -/
def dot (x y : List R) : R := (List.zipWith (· * ·) x y).sum

@[simp] theorem dot_nil_left (y : List R) : dot [] y = 0 := by simp [dot]

@[simp] theorem dot_nil_right (x : List R) : dot x [] = 0 := by simp [dot]

@[simp] theorem dot_cons (a b : R) (x y : List R) :
    dot (a :: x) (b :: y) = a * b + dot x y := by simp [dot]

theorem dot_comm (x y : List R) : dot x y = dot y x := by
  unfold dot
  rw [List.zipWith_comm]
  simp only [mul_comm]

@[simp] theorem dot_replicate_zero (n : Nat) (y : List R) : dot (List.replicate n 0) y = 0 := by
  induction n generalizing y with
  | zero => simp
  | succ n ih => cases y with
    | nil => simp
    | cons b y => simp [List.replicate_succ, ih]

theorem dot_eq_zero_of_forall {x : List R} (y : List R) (zeros : ∀ a ∈ x, a = 0) :
    dot x y = 0 := by
  have all : x = List.replicate x.length 0 := List.eq_replicate_of_mem zeros
  rw [all, dot_replicate_zero]

theorem foldl_mul_add (x y : List R) (start : R) :
    (x.zip y).foldl (fun r pair => r + pair.1 * pair.2) start = start + dot x y := by
  induction x generalizing y start with
  | nil => simp
  | cons a x ih => cases y with
    | nil => simp
    | cons b y =>
      rw [List.zip_cons_cons, List.foldl_cons, ih, dot_cons]
      ring

theorem dot_append {x y x' y' : List R} (size : x.length = y.length) :
    dot (x ++ x') (y ++ y') = dot x y + dot x' y' := by
  unfold dot
  rw [List.zipWith_append size, List.sum_append]

theorem dot_split {weights known unknown : List R} (more : List R)
    (sizes : known.length + unknown.length = weights.length) :
    dot weights (known ++ unknown) =
      dot (weights.take known.length) known +
        dot (weights.drop known.length) (unknown ++ more) := by
  have first : (weights.take known.length).length = known.length := by
    rw [List.length_take]
    omega
  have second : (weights.drop known.length).length = unknown.length := by
    rw [List.length_drop]
    omega
  have grown : dot (weights.drop known.length ++ []) (unknown ++ more) =
      dot (weights.drop known.length) unknown + dot [] more := dot_append second
  rw [List.append_nil, dot_nil_left, add_zero] at grown
  rw [grown, ← dot_append first, List.take_append_drop]

theorem dot_map_mul (c : R) (x y : List R) : dot (x.map (· * c)) y = dot x y * c := by
  induction x generalizing y with
  | nil => simp
  | cons a x ih => cases y with
    | nil => simp
    | cons b y =>
      rw [List.map_cons, dot_cons, dot_cons, ih]
      ring

theorem dot_map_neg (x y : List R) : dot (x.map Neg.neg) y = -dot x y := by
  have scaled := dot_map_mul (-1) x y
  simpa [Function.comp_def] using scaled

/-- Adding to one entry adds to the inner product. -/
theorem dot_set_add {x y : List R} {i : Nat} {a b : R} (d : R) (here : x[i]? = some a)
    (there : y[i]? = some b) : dot (x.set i (a + d)) y = dot x y + d * b := by
  induction x generalizing y i with
  | nil => simp at here
  | cons a' x ih => cases y with
    | nil => simp at there
    | cons b' y => cases i with
      | zero =>
        simp only [List.getElem?_cons_zero, Option.some.injEq] at here there
        subst here there
        rw [List.set_cons_zero, dot_cons, dot_cons]
        ring
      | succ i =>
        rw [List.getElem?_cons_succ] at here there
        rw [List.set_cons_succ, dot_cons, dot_cons, ih here there]
        ring

/-- The inner product with `y + c x`. -/
theorem dot_axpy (c : R) {x y : List R} (v : List R) (size : x.length = y.length) :
    dot (List.zipWith (fun a b => a + c * b) y x) v = dot y v + c * dot x v := by
  induction x generalizing y v with
  | nil =>
    obtain rfl := List.eq_nil_of_length_eq_zero size.symm
    simp
  | cons a x ih => cases y with
    | nil => simp at size
    | cons b y => cases v with
      | nil => simp
      | cons d v =>
        rw [List.zipWith_cons_cons, dot_cons, dot_cons, dot_cons, ih v (by simpa using size)]
        ring

/-- Add to an entry of an array. -/
def addAt {ε : Type} (x : List R) (i : Nat) (d : R) : Exec ε (List R) := do
  let a ← getAt x i
  setAt x i (a + d)

/-- Adding to an entry that stands across `b`. -/
theorem addAt_returns {ε : Type} {x y : List R} {i : Nat} {b : R} (d : R)
    (size : x.length = y.length) (there : y[i]? = some b) :
    ∃ x', (addAt x i d : Exec ε (List R)) = .ok x' ∧ x'.length = y.length ∧
      dot x' y = dot x y + d * b := by
  have bound : i < x.length := size ▸ (List.getElem?_eq_some_iff.mp there).1
  refine ⟨x.set i (x[i] + d), ?_, by simpa using size,
    dot_set_add d (List.getElem?_eq_getElem bound) there⟩
  rw [addAt, getAt_of_lt bound, ok_bind, setAt_of_lt bound]

/-! ### Folding neighbours -/

/-- Replace each pair of neighbours `a, b` by `a + z b`; a last entry without a partner stays. -/
def foldPairs (z : R) : List R → List R
  | [] => []
  | [a] => [a]
  | a :: b :: rest => (a + z * b) :: foldPairs z rest

/-- The sum of the products of the even entries and the sum of the products of the pairs' sums. -/
def pairSums : List R → List R → R × R
  | q0 :: q1 :: q, w0 :: w1 :: w =>
    let (c0, p1) := pairSums q w
    (q0 * w0 + c0, (q0 + q1) * (w0 + w1) + p1)
  | [q0], [w0] => (q0 * w0, q0 * w0)
  | _, _ => (0, 0)

theorem length_foldPairs (z : R) (x : List R) : (foldPairs z x).length = (x.length + 1) / 2 := by
  induction x using foldPairs.induct with
  | case1 => simp [foldPairs]
  | case2 a => simp [foldPairs]
  | case3 a b rest ih =>
    rw [foldPairs, List.length_cons, ih, List.length_cons, List.length_cons]
    omega

/-- **The inner product after a fold** is a quadratic polynomial of the challenge. -/
theorem dot_foldPairs (z : R) {q w : List R} (size : q.length = w.length) :
    dot (foldPairs z q) (foldPairs z w) =
      z * z * dot q w + (1 - z * z) * (pairSums q w).1 + z * ((pairSums q w).2 - dot q w) := by
  induction q using foldPairs.induct generalizing w with
  | case1 =>
    obtain rfl := List.eq_nil_of_length_eq_zero size.symm
    simp [foldPairs, pairSums]
  | case2 a => match w with
    | [b] =>
      simp only [foldPairs, pairSums, dot_cons, dot_nil_left]
      ring
  | case3 a b rest ih => match w with
    | c :: d :: w =>
      have tail := ih (w := w) (by simpa using size)
      simp only [foldPairs, pairSums, dot_cons, tail]
      ring

end Lib
