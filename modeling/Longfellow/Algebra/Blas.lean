/-
**Vector operations** (`runtime/algebra/src/blas.rs`).

The operations on two vectors check that these have the same length and work entry by entry.

* `dot_eq`, `elementwise_eq`, `elementwise3_eq`, `gather_map` — what the operations
  return on vectors of the same length.
-/

import Longfellow.Lib.Dot

namespace Longfellow.Blas

open Lib

variable {ε E : Type} [CommRing E]

/-- The inner product of two vectors. -/
def dot (x y : List E) : Exec ε E := do
  ensure (x.length = y.length) "dot: slice size mismatch"
  pure ((x.zip y).foldl (fun r pair => r + pair.1 * pair.2) 0)

omit [CommRing E] in
/-- Combine two vectors entry by entry. -/
def elementwise (name : String) (op : E → E → E) (y x : List E) : Exec ε (List E) := do
  ensure (y.length = x.length) (name ++ ": slice size mismatch")
  pure (List.zipWith op y x)

/-- `y[i] + a x[i]`. -/
def axpy (y : List E) (a : E) (x : List E) : Exec ε (List E) :=
  elementwise "axpy" (fun yi xi => yi + a * xi) y x

/-- `y[i] * x[i]`. -/
def mul (y x : List E) : Exec ε (List E) := elementwise "mul" (· * ·) y x

omit [CommRing E] in
/-- Combine three vectors entry by entry. -/
def elementwise3 (name : String) (op : E → E → E → E) (y a x : List E) : Exec ε (List E) := do
  ensure (y.length = a.length) (name ++ ": slice size mismatch")
  ensure (y.length = x.length) (name ++ ": slice size mismatch")
  pure (List.zipWith3 op y a x)

/-- `y[i] + a[i] x[i]`. -/
def vaxpy (y a x : List E) : Exec ε (List E) :=
  elementwise3 "vaxpy" (fun yi ai xi => yi + ai * xi) y a x

/-- `y[i] - a[i] x[i]`. -/
def vymax (y a x : List E) : Exec ε (List E) :=
  elementwise3 "vymax" (fun yi ai xi => yi - ai * xi) y a x

/-- The sum of a vector. -/
def dot1 (x : List E) : E := x.foldl (· + ·) 0

omit [CommRing E] in
/-- Whether two vectors of the same length are equal. -/
def equal [DecidableEq E] (x y : List E) : Exec ε Bool := do
  ensure (x.length = y.length) "equal: slice size mismatch"
  pure (decide (x = y))

/-- Whether all entries are zero. -/
def equal0 [DecidableEq E] (x : List E) : Bool := x.all fun xi => decide (xi = 0)

omit [CommRing E] in
/-- The entries at the given indices. -/
def gather (idx : List Nat) (src : List E) : Exec ε (List E) :=
  idx.mapM fun i => do
    ensure (i < src.length) "src index out of bounds"
    getAt src i

theorem dot_eq {x y : List E} (size : x.length = y.length) :
    (dot x y : Exec ε E) = .ok (Lib.dot x y) := by
  rw [dot, ensure_of size, ok_bind, pure_eq_ok, foldl_mul_add, zero_add]

omit [CommRing E] in
theorem elementwise_eq {name : String} {op : E → E → E} {y x : List E} (size : y.length = x.length) :
    (elementwise name op y x : Exec ε _) = .ok (List.zipWith op y x) := by
  rw [elementwise, ensure_of size, ok_bind, pure_eq_ok]

omit [CommRing E] in
theorem elementwise3_eq {name : String} {op : E → E → E → E} {y a x : List E}
    (size : y.length = a.length) (size' : y.length = x.length) :
    (elementwise3 name op y a x : Exec ε _) = .ok (List.zipWith3 op y a x) := by
  rw [elementwise3, ensure_of size, ok_bind, ensure_of size', ok_bind, pure_eq_ok]

theorem dot1_eq (x : List E) : dot1 x = x.sum := by
  rw [dot1, ← List.sum_eq_foldl]

omit [CommRing E] in
theorem gather_map {idx : List Nat} {src : List E} (value : Nat → E)
    (found : ∀ i ∈ idx, src[i]? = some (value i)) :
    (gather idx src : Exec ε (List E)) = .ok (idx.map value) := by
  refine mapM_eq_ok_map fun i member => ?_
  have here := found i member
  have bound := (List.getElem?_eq_some_iff.mp here).1
  rw [ensure_of bound, ok_bind, getAt_eq_ok]
  exact here

end Longfellow.Blas
