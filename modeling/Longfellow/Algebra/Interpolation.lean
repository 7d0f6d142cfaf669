/-
**Interpolation between ranges of points** (`runtime/algebra/src/range_interpolation/mod.rs`).

A backend has a fixed table of points, referred to by their indices. A plan takes the values of a
polynomial on a source range to its values on a destination range.

* `RangeInterpolatorFactory.Exact` — the plans are exact, at distinct points.
-/

import Longfellow.Algebra.Blas
import Longfellow.Lib.Evals
import Longfellow.Proto.Util

namespace Longfellow

open Lib Polynomial

variable {ε E : Type}

/-- A range of indices. -/
structure IndexRange where
  start : Nat
  stop : Nat
  deriving DecidableEq, Repr

/-- The number of indices. -/
def IndexRange.len (range : IndexRange) : Nat := range.stop - range.start

/-- The indices in order. -/
def IndexRange.cols (range : IndexRange) : List Nat := List.range' range.start range.len

/-- A plan for a source and a destination. `applySubfield` is for values in a subfield. -/
structure InterpolationPlan (E : Type) where
  apply : List E → List E
  applySubfield : List E → List E

/-- A backend: the ranges it can interpolate between, its plans and its points. -/
structure RangeInterpolatorFactory (E : Type) where
  canInterpolate : IndexRange → IndexRange → Bool
  plan : IndexRange → IndexRange → InterpolationPlan E
  point : Nat → E

/-- The plan for two ranges. Unsupported ranges are a panic. -/
def RangeInterpolatorFactory.makeRange (domain : RangeInterpolatorFactory E)
    (source destination : IndexRange) : Exec ε (InterpolationPlan E) := do
  ensure (domain.canInterpolate source destination = true) "unsupported interpolation ranges"
  pure (domain.plan source destination)

/-- Construct and apply one plan. -/
def RangeInterpolatorFactory.interpolateRange (domain : RangeInterpolatorFactory E)
    (sourceBegin : Nat) (values : List E) (destination : IndexRange) : Exec ε (List E) := do
  let plan ← domain.makeRange ⟨sourceBegin, sourceBegin + values.length⟩ destination
  pure (plan.apply values)

/-- The plans of a backend are exact: between supported ranges the points are distinct, the values
of a polynomial of low degree on the source are taken to its values on the destination, and values
in the subfield are taken to the same. -/
structure RangeInterpolatorFactory.Exact [CommRing E] (domain : RangeInterpolatorFactory E)
    (sf : Subfield E) : Prop where
  ordered : ∀ {source destination}, domain.canInterpolate source destination = true →
    source.start < source.stop ∧ destination.start ≤ destination.stop
  distinct : ∀ {source destination}, domain.canInterpolate source destination = true →
    Set.InjOn domain.point {j | source.start ≤ j ∧ j < source.stop ∨
      destination.start ≤ j ∧ j < destination.stop}
  exact : ∀ {source destination}, domain.canInterpolate source destination = true →
    ∀ p ∈ degreeLT E source.len, (domain.plan source destination).apply
      (evalsAt domain.point source.cols p) = evalsAt domain.point destination.cols p
  subfield : ∀ {source destination}, domain.canInterpolate source destination = true →
    ∀ xs, xs.length = source.len → (∀ x ∈ xs, sf.contains x = true) →
      (domain.plan source destination).applySubfield xs = (domain.plan source destination).apply xs

variable [CommRing E] {domain : RangeInterpolatorFactory E}

omit [CommRing E] in
theorem makeRange_eq {source destination : IndexRange}
    (can : domain.canInterpolate source destination = true) :
    (domain.makeRange source destination : Exec ε _) = .ok (domain.plan source destination) := by
  rw [RangeInterpolatorFactory.makeRange, ensure_of can, ok_bind, pure_eq_ok]

/-! ### Lagrange interpolation -/

section Lagrange

variable {F : Type} [Field F] {point : Nat → F} {capacity : Nat}

/-- The polynomial through the values on a range. -/
noncomputable def interpolant (point : Nat → F) (source : IndexRange) (xs : List F) : F[X] :=
  Lagrange.interpolate (Finset.range source.len) (fun i => point (source.start + i))
    fun i => xs.getD i 0

/-- The backend that evaluates the interpolant, over the first points of a table. -/
noncomputable def lagrange (point : Nat → F) (capacity : Nat) : RangeInterpolatorFactory F where
  canInterpolate source destination := decide (source.start < source.stop ∧
    source.stop ≤ capacity ∧ destination.start ≤ destination.stop ∧ destination.stop ≤ capacity)
  plan source destination :=
    let apply := fun xs => evalsAt point destination.cols (interpolant point source xs)
    ⟨apply, apply⟩
  point := point

theorem interpolant_evalsAt {source : IndexRange} {p : F[X]}
    (distinct : Set.InjOn point {j | j < capacity}) (bound : source.stop ≤ capacity)
    (low : p ∈ degreeLT F source.len) :
    interpolant point source (evalsAt point source.cols p) = p := by
  have injective : Set.InjOn (fun i => point (source.start + i))
      (Finset.range source.len : Set Nat) := by
    intro i inside j inside' same
    rw [Finset.mem_coe, Finset.mem_range, IndexRange.len] at inside inside'
    have place : ∀ i < source.stop - source.start, source.start + i ∈ {j | j < capacity} :=
      fun i below => show source.start + i < capacity by omega
    exact Nat.add_left_cancel (distinct (place i inside) (place j inside') same)
  refine (Lagrange.eq_interpolate_of_eval_eq _ injective ?_ fun i inside => ?_).symm
  · rw [Finset.card_range]
    exact mem_degreeLT.mp low
  · have below : i < source.len := Finset.mem_range.mp inside
    have found : source.cols[i]? = some (source.start + i) := by
      rw [IndexRange.cols, List.getElem?_range' below, Nat.one_mul]
    rw [List.getD_eq_getElem?_getD, getElem?_evalsAt found, Option.getD_some]

/-- **Lagrange interpolation is exact.** -/
theorem lagrange_exact (distinct : Set.InjOn point {j | j < capacity}) (sf : Subfield F) :
    (lagrange point capacity).Exact sf where
  ordered can := by
    have bounds := of_decide_eq_true can
    omega
  distinct can := by
    have bounds := of_decide_eq_true can
    exact distinct.mono fun j inside => by
      rw [Set.mem_ofPred_eq] at inside ⊢
      omega
  exact can p low := by
    have bounds := of_decide_eq_true can
    exact congrArg (evalsAt point _) (interpolant_evalsAt distinct bounds.2.1 low)
  subfield _ _ _ _ := rfl

end Lagrange

end Longfellow
