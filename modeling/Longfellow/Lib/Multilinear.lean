/-
**Multilinear polynomials.**

An array of length `n ≤ 2^k` is a tensor in `k` variables of two entries each: bit `j` of an index
belongs to variable `j`. Binding the low variable combines neighbours with the two weights of the
variable, and binding all of them leaves the inner product with the table of product weights.

* `foldWith`, `dot_tensors_cons` — **binding one variable**.
-/

import Longfellow.Lib.Dot
import Mathlib.Algebra.BigOperators.Fin
import Mathlib.Data.List.GetD

namespace Lib

open Finset

variable {R : Type} [CommRing R] {ε : Type}

/-- The product weight of an index: one factor for each bit, lowest bit first. -/
def tensor : List (R × R) → Nat → R
  | [], _ => 1
  | pair :: pairs, i => (if i % 2 = 1 then pair.2 else pair.1) * tensor pairs (i / 2)

/-- The table of the first `n` product weights. -/
def tensors (pairs : List (R × R)) (n : Nat) : List R := (List.range n).map (tensor pairs)

@[simp] theorem length_tensors (pairs : List (R × R)) (n : Nat) : (tensors pairs n).length = n := by
  simp [tensors]

theorem tensor_even (pair : R × R) (pairs : List (R × R)) (i : Nat) :
    tensor (pair :: pairs) (2 * i) = pair.1 * tensor pairs i := by
  have low : ¬ 2 * i % 2 = 1 := by omega
  have half : 2 * i / 2 = i := by omega
  rw [tensor, if_neg low, half]

theorem tensor_odd (pair : R × R) (pairs : List (R × R)) (i : Nat) :
    tensor (pair :: pairs) (2 * i + 1) = pair.2 * tensor pairs i := by
  have low : (2 * i + 1) % 2 = 1 := by omega
  have half : (2 * i + 1) / 2 = i := by omega
  rw [tensor, if_pos low, half]

/-! ### Binding one variable -/

theorem dot_map_range (f : Nat → R) {v : List R} {n : Nat} (size : v.length ≤ n) :
    dot ((List.range v.length).map f) v = ∑ i ∈ range n, f i * v.getD i 0 := by
  have exact : dot ((List.range v.length).map f) v = ∑ i ∈ range v.length, f i * v.getD i 0 := by
    clear size
    induction v using List.reverseRecOn with
    | nil => simp
    | append_singleton v a ih =>
      have head : ∀ i ∈ range v.length, f i * (v ++ [a]).getD i 0 = f i * v.getD i 0 := by
        intro i member
        rw [List.getD_append _ _ _ _ (mem_range.mp member)]
      have last : (v ++ [a]).getD v.length 0 = a := by
        rw [List.getD_eq_getElem?_getD, List.getElem?_concat_length, Option.getD_some]
      rw [List.length_append, List.length_singleton, sum_range_succ, sum_congr rfl head, last,
        ← ih, List.range_succ, List.map_append, List.map_singleton]
      unfold dot
      rw [List.zipWith_append (by simp), List.sum_append]
      simp
  rw [exact]
  apply sum_subset (range_subset_range.mpr size)
  intro i _ outside
  rw [List.getD_eq_default _ _ (by simpa using outside), mul_zero]

theorem sum_range_pairs (f : Nat → R) (n : Nat) :
    ∑ i ∈ range (2 * n), f i = ∑ i ∈ range n, (f (2 * i) + f (2 * i + 1)) := by
  induction n with
  | zero => simp
  | succ n ih =>
    rw [Nat.mul_succ, sum_range_succ, sum_range_succ, ih, sum_range_succ, add_assoc]

/-- Replace each pair of neighbours `a, b` by `x a + y b`; the partner of a last entry is zero. -/
def foldWith (x y : R) : List R → List R
  | [] => []
  | [a] => [x * a]
  | a :: b :: rest => (x * a + y * b) :: foldWith x y rest

theorem length_foldWith (x y : R) (v : List R) : (foldWith x y v).length = (v.length + 1) / 2 := by
  induction v using foldWith.induct with
  | case1 => simp [foldWith]
  | case2 a => simp [foldWith]
  | case3 a b rest ih =>
    rw [foldWith, List.length_cons, ih, List.length_cons, List.length_cons]
    omega

theorem getD_foldWith (x y : R) (v : List R) (i : Nat) :
    (foldWith x y v).getD i 0 = x * v.getD (2 * i) 0 + y * v.getD (2 * i + 1) 0 := by
  induction v using foldWith.induct generalizing i with
  | case1 => simp [foldWith]
  | case2 a => cases i with
    | zero => simp [foldWith]
    | succ i => simp [foldWith, Nat.mul_succ]
  | case3 a b rest ih => cases i with
    | zero => simp [foldWith]
    | succ i => simpa [foldWith, Nat.mul_succ] using ih i

/-- The inner product of a bound array with the table of a function. -/
theorem dot_map_foldWith (x y : R) (f : Nat → R) (v : List R) :
    dot ((List.range (foldWith x y v).length).map f) (foldWith x y v) =
      dot ((List.range v.length).map fun i => (if i % 2 = 1 then y else x) * f (i / 2)) v := by
  have size : (foldWith x y v).length = (v.length + 1) / 2 := length_foldWith x y v
  rw [dot_map_range f size.le, dot_map_range _ (show v.length ≤ 2 * ((v.length + 1) / 2) by omega),
    sum_range_pairs]
  refine sum_congr rfl fun i _ => ?_
  have low : 2 * i % 2 = 0 := by omega
  have high : (2 * i + 1) % 2 = 1 := by omega
  have half : 2 * i / 2 = i := by omega
  have half' : (2 * i + 1) / 2 = i := by omega
  rw [getD_foldWith, low, high, half, half', if_pos rfl, if_neg zero_ne_one]
  ring

/-- **Binding one variable**: the fold has the value of the array with the low variable fixed. -/
theorem dot_tensors_cons (pair : R × R) (pairs : List (R × R)) (v : List R) :
    dot (tensors (pair :: pairs) v.length) v =
      dot (tensors pairs (foldWith pair.1 pair.2 v).length) (foldWith pair.1 pair.2 v) := by
  unfold tensors
  rw [dot_map_foldWith]
  rfl

/-! ### The highest variable -/

section

variable (pairs : List (R × R)) (pair : R × R)
include pairs pair

/-- The weight of an index whose highest bit is not set. -/
theorem tensor_append_low {i : Nat} (low : i < 2 ^ pairs.length) :
    tensor (pairs ++ [pair]) i = tensor pairs i * pair.1 := by
  induction pairs generalizing i with
  | nil =>
    have zero : i = 0 := by simpa using low
    simp [tensor, zero]
  | cons first pairs ih =>
    rw [List.length_cons, pow_succ] at low
    rw [List.cons_append, tensor, tensor, ih (by omega), mul_assoc]

theorem tensor_append_high {i : Nat} (low : i < 2 ^ pairs.length) :
    tensor (pairs ++ [pair]) (2 ^ pairs.length + i) = tensor pairs i * pair.2 := by
  induction pairs generalizing i with
  | nil =>
    have zero : i = 0 := by simpa using low
    simp [tensor, zero]
  | cons first pairs ih =>
    rw [List.length_cons, pow_succ] at low ⊢
    have bit : (2 ^ pairs.length * 2 + i) % 2 = i % 2 := by omega
    have half : (2 ^ pairs.length * 2 + i) / 2 = 2 ^ pairs.length + i / 2 := by omega
    rw [List.cons_append, tensor, tensor, bit, half, ih (by omega), mul_assoc]

/-- A short table does not see the second weight of the highest variable. -/
theorem tensors_append_low {n : Nat} (low : n ≤ 2 ^ pairs.length) :
    tensors (pairs ++ [pair]) n = (tensors pairs n).map (· * pair.1) := by
  unfold tensors
  rw [List.map_map]
  refine List.map_congr_left fun i member => ?_
  exact tensor_append_low pairs pair ((List.mem_range.mp member).trans_le low)

theorem tensors_append_high {m : Nat} (low : m ≤ 2 ^ pairs.length) :
    tensors (pairs ++ [pair]) (2 ^ pairs.length + m) =
      (tensors pairs (2 ^ pairs.length)).map (· * pair.1) ++
        (tensors pairs m).map (· * pair.2) := by
  rw [← tensors_append_low pairs pair le_rfl]
  unfold tensors
  rw [List.range_add, List.map_append, List.map_map, List.map_map]
  congr 1
  refine List.map_congr_left fun i member => ?_
  exact tensor_append_high pairs pair ((List.mem_range.mp member).trans_le low)

end

/-! ### The monomials at a point -/

/-- The table of the first `n` monomials at a point. -/
def monomials (point : List R) (n : Nat) : List R := tensors (point.map fun z => (1, z)) n

@[simp] theorem length_monomials (point : List R) (n : Nat) : (monomials point n).length = n :=
  length_tensors _ n

theorem foldPairs_eq (z : R) (v : List R) : foldPairs z v = foldWith 1 z v := by
  induction v using foldPairs.induct with
  | case1 => rfl
  | case2 a => rw [foldPairs, foldWith, one_mul]
  | case3 a b rest ih => rw [foldPairs, foldWith, ih, one_mul]

theorem dot_monomials_cons (z : R) (point v : List R) :
    dot (monomials (z :: point) v.length) v =
      dot (monomials point (foldPairs z v).length) (foldPairs z v) := by
  rw [foldPairs_eq]
  exact dot_tensors_cons (1, z) (point.map fun z => (1, z)) v

/-- Fill a prefix of the table from the highest coordinate down, with an accumulated weight. -/
def fillMonomials : List R → Nat → R → Exec ε (List R)
  | [], n, weight =>
    if n = 0 then abort "index out of bounds" else pure (weight :: List.replicate (n - 1) 0)
  | z :: lower, n, weight =>
    if 2 ^ lower.length < n then do
      let weights0 ← fillMonomials lower (2 ^ lower.length) weight
      let weights1 ← fillMonomials lower (n - 2 ^ lower.length) (weight * z)
      pure (weights0 ++ weights1)
    else fillMonomials lower n weight

/-- **The table filled from the highest bit down** is the table of monomials. -/
theorem fillMonomials_eq (reversed : List R) {n : Nat} (weight : R) (positive : 0 < n)
    (size : n ≤ 2 ^ reversed.length) :
    (fillMonomials reversed n weight : Exec ε _) =
      .ok ((monomials reversed.reverse n).map (weight * ·)) := by
  induction reversed generalizing n weight with
  | nil =>
    obtain rfl : n = 1 := by
      simp only [List.length_nil, pow_zero] at size
      omega
    simp [fillMonomials, monomials, tensors, tensor]
  | cons z lower ih =>
    have low : (lower.reverse.map fun z => ((1 : R), z)).length = lower.length := by simp
    have split : ((z :: lower).reverse.map fun z => ((1 : R), z)) =
        (lower.reverse.map fun z => (1, z)) ++ [(1, z)] := by simp
    rw [List.length_cons, pow_succ] at size
    unfold fillMonomials monomials
    unfold monomials at ih
    rw [split]
    by_cases high : 2 ^ lower.length < n
    · obtain ⟨m, rfl⟩ := Nat.exists_eq_add_of_le high.le
      have table := tensors_append_high (lower.reverse.map fun z => (1, z)) ((1 : R), z)
        (m := m) (by rw [low]; omega)
      rw [low] at table
      rw [if_pos high, ih weight (Nat.two_pow_pos _) le_rfl, ok_bind, Nat.add_sub_cancel_left,
        ih (weight * z) (by omega) (by omega), ok_bind, pure_eq_ok, table, List.map_append,
        List.map_map, List.map_map]
      congr 3
      · funext a
        exact (congrArg (weight * ·) (mul_one a)).symm
      · funext a
        exact (mul_right_comm weight a z).symm.trans (mul_assoc weight a z)
    · rw [if_neg high, ih weight positive (by omega),
        tensors_append_low _ _ (by rw [low]; omega), List.map_map]
      congr 2
      funext a
      exact (congrArg (weight * ·) (mul_one a)).symm

/-! ### The Boolean cube -/

/-- The table of the first `n` equality weights at a point: `z` for a set bit, `1 - z` for an unset
one. -/
def eqWeights (point : List R) (n : Nat) : List R := tensors (point.map fun z => (1 - z, z)) n

@[simp] theorem length_eqWeights (point : List R) (n : Nat) : (eqWeights point n).length = n :=
  length_tensors _ n

theorem dot_eqWeights_cons (z : R) (point v : List R) :
    dot (eqWeights (z :: point) v.length) v =
      dot (eqWeights point (foldWith (1 - z) z v).length) (foldWith (1 - z) z v) :=
  dot_tensors_cons (1 - z, z) (point.map fun z => (1 - z, z)) v

end Lib
