/-
**Vectors of values of polynomials.**

`evalsAt point cols p` lists the values of `p` at the points with the indices `cols`, so that an
identity between polynomials that one party computes on some points holds where another party reads
it.

* `exists_evalsAt` — every vector of `n` entries is the values of a polynomial of degree less than
  `n`, at distinct points.
-/

import Longfellow.Lib.Exec
import Mathlib.LinearAlgebra.Lagrange

namespace Lib

open Polynomial

variable {R : Type}

section Values

variable [CommRing R] (point : Nat → R)

/-- The values of a polynomial at the points with the given indices. -/
noncomputable def evalsAt (cols : List Nat) (p : R[X]) : List R := cols.map fun j => p.eval (point j)

variable {point} {cols : List Nat} {p q : R[X]}

@[simp] theorem length_evalsAt : (evalsAt point cols p).length = cols.length := List.length_map _

theorem getElem?_evalsAt {i j : Nat} (found : cols[i]? = some j) :
    (evalsAt point cols p)[i]? = some (p.eval (point j)) := by
  rw [evalsAt, List.getElem?_map, found, Option.map_some]

end Values

section Fields

variable [Field R] {point : Nat → R} {lo n : Nat}

/-- Distinct points. -/
def DistinctOn (point : Nat → R) (lo n : Nat) : Prop :=
  Set.InjOn point {j | lo ≤ j ∧ j < lo + n}

/-- **Every vector is the values of a polynomial of low degree.** -/
theorem exists_evalsAt (distinct : DistinctOn point lo n) {xs : List R} (size : xs.length = n) :
    ∃ p ∈ degreeLT R n, evalsAt point (List.range' lo n) p = xs := by
  have injective : Set.InjOn (fun i => point (lo + i)) (Finset.range n : Set Nat) := by
    intro i inside j inside' same
    rw [Finset.mem_coe, Finset.mem_range] at inside inside'
    have := distinct ⟨Nat.le_add_right lo i, by omega⟩ ⟨Nat.le_add_right lo j, by omega⟩ same
    omega
  refine ⟨Lagrange.interpolate (Finset.range n) (fun i => point (lo + i)) fun i => xs.getD i 0, ?_, ?_⟩
  · have low := Lagrange.degree_interpolate_lt (fun i => xs.getD i 0) injective
    rw [Finset.card_range] at low
    exact mem_degreeLT.mpr low
  · refine List.ext_getElem (by simp [size]) fun i bound bound' => ?_
    have inside : i ∈ Finset.range n := Finset.mem_range.mpr (by omega)
    have value := Lagrange.eval_interpolate_at_node (fun i => xs.getD i 0) injective inside
    simp only [evalsAt, List.getElem_map, List.getElem_range', Nat.one_mul]
    rw [value, List.getD_eq_getElem?_getD, List.getElem?_eq_getElem bound', Option.getD_some]

end Fields

end Lib
