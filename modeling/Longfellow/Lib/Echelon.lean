/-
**Gauss-Jordan elimination.**

Rows of a vector space are reduced by adding multiples of one row to the others. Some of the rows
have a coordinate in which they are one and all others are zero; such rows can be read off a
combination of the rows.

* `span_comp`, `span_scale`, `span_clear` — **no step changes the combinations** of the rows.
-/

import Mathlib.LinearAlgebra.FiniteDimensional.Lemmas

namespace Lib

open Submodule

variable {k V ι κ : Type} [Field k] [AddCommGroup V] [Module k V]

/-- The rows in `done` are one in a coordinate of their own, and all others are zero there. -/
structure Reduced (coord : κ → V →ₗ[k] k) (u : ι → V) (pivot : ι → κ) (done : Set ι) : Prop where
  one : ∀ i ∈ done, coord (pivot i) (u i) = 1
  others : ∀ i ∈ done, ∀ i', i' ≠ i → coord (pivot i) (u i') = 0

variable {coord : κ → V →ₗ[k] k} {u : ι → V} {pivot : ι → κ} {done : Set ι} {r : ι}

theorem reduced_empty : Reduced coord u pivot ∅ :=
  ⟨fun _ member => absurd member (Set.notMem_empty _),
    fun _ member => absurd member (Set.notMem_empty _)⟩

section

variable (reduced : Reduced coord u pivot done)
include reduced

theorem Reduced.congr {pivot' : ι → κ} (same : ∀ i ∈ done, pivot' i = pivot i) :
    Reduced coord u pivot' done :=
  ⟨fun i member => same i member ▸ reduced.one i member,
    fun i member => same i member ▸ reduced.others i member⟩

theorem Reduced.comp (order : ι ≃ ι) (fixed : ∀ i ∈ done, order i = i) :
    Reduced coord (u ∘ order) pivot done where
  one i member := by
    rw [Function.comp_apply, fixed i member]
    exact reduced.one i member
  others i member i' other := by
    refine reduced.others i member _ fun same => other ?_
    rw [← fixed i member] at same
    exact order.injective same

/-- **One step**: multiples of a row that is one in a coordinate are added to the others. -/
theorem Reduced.clear {j : κ} {c : ι → k} (fresh : r ∉ done) (one : coord j (u r) = 1)
    (pivots : pivot r = j) (stays : c r = 0) (cancels : ∀ i ≠ r, coord j (u i) + c i = 0) :
    Reduced coord (u + (c · • u r)) pivot (insert r done) := by
  have zero : ∀ i ∈ done, coord (pivot i) (u r) = 0 := fun i member =>
    reduced.others i member r fun same => fresh (same ▸ member)
  refine ⟨fun i member => ?_, fun i member i' other => ?_⟩ <;>
    rcases Set.mem_insert_iff.mp member with rfl | old
  · simp [pivots, one, stays]
  · simp [reduced.one i old, zero i old]
  · simpa [pivots, one] using cancels i' other
  · simp [reduced.others i old i' other, zero i old]

theorem Reduced.scale [DecidableEq ι] (fresh : r ∉ done) (c : k) :
    Reduced coord (Function.update u r (c • u r)) pivot done where
  one i member := by
    have apart : i ≠ r := fun same => fresh (same ▸ member)
    rw [Function.update_of_ne apart]
    exact reduced.one i member
  others i member i' other := by
    by_cases same : i' = r
    · rw [same, Function.update_self, map_smul,
        reduced.others i member r fun equal => fresh (equal ▸ member), smul_zero]
    · rw [Function.update_of_ne same]
      exact reduced.others i member i' other

end

/-! ### The combinations of the rows -/

theorem span_comp (order : ι ≃ ι) : span k (Set.range (u ∘ order)) = span k (Set.range u) := by
  rw [EquivLike.range_comp]

theorem span_scale [DecidableEq ι] {c : k} (nonzero : c ≠ 0) :
    span k (Set.range (Function.update u r (c • u r))) = span k (Set.range u) := by
  have row : ∀ i, Function.update u r (c • u r) i ∈ span k (Set.range u) := by
    intro i
    by_cases same : i = r
    · rw [same, Function.update_self]
      exact smul_mem _ _ (subset_span ⟨r, rfl⟩)
    · rw [Function.update_of_ne same]
      exact subset_span ⟨i, rfl⟩
  have back : ∀ i, u i ∈ span k (Set.range (Function.update u r (c • u r))) := by
    intro i
    by_cases same : i = r
    · have scaled := subset_span (R := k) (Set.mem_range_self (f := Function.update u r (c • u r)) r)
      rw [Function.update_self] at scaled
      rw [same]
      exact (smul_mem_iff _ nonzero).mp scaled
    · exact subset_span ⟨i, Function.update_of_ne same _ _⟩
  refine le_antisymm (span_le.mpr ?_) (span_le.mpr ?_)
  · rintro _ ⟨i, rfl⟩
    exact row i
  · rintro _ ⟨i, rfl⟩
    exact back i

theorem span_clear {c : ι → k} (stays : c r = 0) :
    span k (Set.range (u + (c · • u r))) = span k (Set.range u) := by
  have same : (u + (c · • u r)) r = u r := by
    rw [Pi.add_apply, stays, zero_smul, add_zero]
  refine le_antisymm (span_le.mpr ?_) (span_le.mpr ?_)
  · rintro _ ⟨i, rfl⟩
    exact add_mem (subset_span ⟨i, rfl⟩) (smul_mem _ _ (subset_span ⟨r, rfl⟩))
  · rintro _ ⟨i, rfl⟩
    have row : u i = (u + (c · • u r)) i - c i • (u + (c · • u r)) r := by
      rw [same, Pi.add_apply, add_sub_cancel_right]
    rw [row]
    exact sub_mem (subset_span ⟨i, rfl⟩) (smul_mem _ _ (subset_span ⟨r, rfl⟩))

theorem eq_zero_of_span {u' : ι → V} (same : span k (Set.range u') = span k (Set.range u))
    {f : V →ₗ[k] k} (zero : ∀ i, f (u' i) = 0) (i : ι) : f (u i) = 0 := by
  have inside : span k (Set.range u') ≤ LinearMap.ker f := by
    rw [span_le]
    rintro _ ⟨i', rfl⟩
    exact zero i'
  exact inside (same ▸ subset_span ⟨i, rfl⟩)

/-! ### All rows -/

section All

variable [Fintype ι] (all : Reduced coord u pivot Set.univ)

include all

theorem Reduced.coord_sum (c : ι → k) (i : ι) : coord (pivot i) (∑ i, c i • u i) = c i := by
  rw [map_sum, Finset.sum_eq_single i]
  · rw [map_smul, all.one i (Set.mem_univ i), smul_eq_mul, mul_one]
  · intro i' _ other
    rw [map_smul, all.others i (Set.mem_univ i) i' other, smul_zero]
  · exact fun out => absurd (Finset.mem_univ i) out

/-- **A combination of the rows** is known by its coordinates. -/
theorem Reduced.sum_eq {v : V} (inside : v ∈ span k (Set.range u)) :
    ∑ i, coord (pivot i) v • u i = v := by
  obtain ⟨c, rfl⟩ := (mem_span_range_iff_exists_fun k).mp inside
  exact Finset.sum_congr rfl fun i _ => by rw [all.coord_sum]

theorem Reduced.mem_span_iff {v : V} :
    v ∈ span k (Set.range u) ↔ ∑ i, coord (pivot i) v • u i = v := by
  refine ⟨all.sum_eq, fun same => same ▸ ?_⟩
  exact (mem_span_range_iff_exists_fun k).mpr ⟨_, rfl⟩

theorem Reduced.linearIndependent : LinearIndependent k u := by
  rw [Fintype.linearIndependent_iff]
  intro c zero i
  rw [← all.coord_sum c i, zero, map_zero]

theorem Reduced.span_eq {v : ι → V} (inside : ∀ i, u i ∈ span k (Set.range v)) :
    span k (Set.range u) = span k (Set.range v) := by
  have small : Module.finrank k (span k (Set.range v)) ≤ Fintype.card ι := finrank_range_le_card v
  have finite := FiniteDimensional.span_of_finite k (Set.finite_range v)
  refine eq_of_le_of_finrank_le (span_le.mpr ?_) ?_
  · rintro _ ⟨i, rfl⟩
    exact inside i
  · rw [finrank_span_eq_card all.linearIndependent]
    exact small

end All

end Lib
