/-
**Tables of any size** (`runtime/sumcheck-v1/src/eq.rs`, `runtime/sumcheck-v1/src/dense.rs`,
`runtime/sumcheck-v2/src/dense.rs`, `runtime/sumcheck-v2/src/monomial.rs`).

A table of `n` entries stands for the table of `2^logn` entries that is padded with zeros. None of the
loops writes the padding: the table of weights is cut at every split, the sum of the diagonal keeps
two scalars, and binding treats a last entry without a partner on its own.

* `eval_eq` — **the diagonal from two scalars**.
-/

import Longfellow.Lib.Cube
import Longfellow.Lib.InPlace
import Longfellow.SumcheckV1.Dense
import Longfellow.SumcheckV2.Completeness

namespace Longfellow.SumcheckV1

open Lib Finset

variable {ε E : Type} [CommRing E] {v : List E}

/-! ### The formulas -/

/-- The weight of an index at a point: `z` for a set bit, `1 - z` for an unset one. -/
def eqAt (point : List E) (i : Nat) : E :=
  ∏ j ∈ range point.length, if i.testBit j then point.getD j 0 else 1 - point.getD j 0

/-- The value at a point of the multilinear extension of a table padded with zeros. -/
def extension (point v : List E) : E :=
  ∑ i ∈ range (2 ^ point.length), eqAt point i * v.getD i 0

theorem eqAt_eq_tensor (point : List E) (i : Nat) :
    eqAt point i = tensor (point.map fun z => (1 - z, z)) i := by
  rw [tensor_eq_prod, List.length_map, eqAt]
  refine prod_congr rfl fun j member => ?_
  have bound : j < point.length := mem_range.mp member
  rw [List.getD_eq_getElem _ _ bound, List.getD_eq_getElem _ _ (by simpa using bound),
    List.getElem_map]

/-! ### The table of weights -/

theorem eq2_getElem? {g0 g1 : List E} {logn n : Nat} (long0 : logn ≤ g0.length)
    (long1 : logn ≤ g1.length) (positive : 0 < n) (fits : n ≤ 2 ^ logn) (alpha : E) :
    ∃ table, (eq2 logn n g0 g1 alpha : Exec ε _) = .ok table ∧ table.length = n ∧
      ∀ i < n, table[i]? = some (eqAt (g0.take logn) i + alpha * eqAt (g1.take logn) i) := by
  refine ⟨_, fillRecursive_eq long0 long1 positive fits 1 alpha, by simp, fun i below => ?_⟩
  have entry : ∀ point : List E, (eqWeights point n)[i]? = some (eqAt point i) := by
    intro point
    rw [eqWeights, tensors, List.getElem?_map, List.getElem?_range below, eqAt_eq_tensor]
    rfl
  rw [List.getElem?_zipWith, entry, entry]
  simp

/-! ### The diagonal -/

/-- Bind one bit of both indices: the common weight, the last weight and the width. -/
def evalStep (s : E × E × Nat) (bits : E × E) : E × E × Nat :=
  let (a, b, n) := s
  let (i1, j1) := bits
  let i0 := 1 - i1
  let j0 := 1 - j1
  let i0j0 := i0 * j0
  let i1j1 := i1 * j1
  let b := if n % 2 = 0 then b * i1j1 + a * i0j0 else b * i0j0
  (a * (i0j0 + i1j1), b, divCeil n 2)

/-- The sum of `eq(inputI, i) eq(inputJ, i)` for `i` below `n`. -/
def eval (logn n : Nat) (inputI inputJ : List E) : Exec ε E := do
  ensure (inputI.length ≥ logn ∧ inputJ.length ≥ logn)
    "assertion failed: input_i.len() >= logn && input_j.len() >= logn"
  let (_, b, _) := ((inputI.take logn).zip (inputJ.take logn)).foldl evalStep (1, 1, n)
  pure b

/-- The product of the weights of an index at two points. -/
def diagonal (bits : List (E × E)) (i : Nat) : E :=
  tensor (bits.map fun bit => ((1 - bit.1) * (1 - bit.2), bit.1 * bit.2)) i

theorem diagonal_zip {x y : List E} (size : x.length = y.length) (i : Nat) :
    diagonal (x.zip y) i = eqAt x i * eqAt y i := by
  rw [eqAt_eq_tensor, eqAt_eq_tensor]
  unfold diagonal
  induction x generalizing y i with
  | nil => simp [List.eq_nil_of_length_eq_zero size.symm, tensor]
  | cons a x ih =>
    obtain ⟨b, y, rfl⟩ := List.exists_cons_of_length_eq_add_one size.symm
    have rest := ih (Nat.succ.inj size) (i / 2)
    simp only [List.zip_cons_cons, List.map_cons, tensor, rest]
    split <;> ring

/-- **The two scalars**: the loop ends with the sum that they stand for. -/
theorem foldl_evalStep (bits : List (E × E)) (a b : E) {n : Nat} (positive : 0 < n)
    (fits : n ≤ 2 ^ bits.length) :
    (bits.foldl evalStep (a, b, n)).2.1 = prefixSum a b n (diagonal bits) := by
  induction bits generalizing a b n with
  | nil =>
    obtain rfl : n = 1 := by
      rw [List.length_nil, pow_zero] at fits
      omega
    simp [prefixSum, diagonal, tensor]
  | cons bit bits ih =>
    have even : ∀ i, diagonal (bit :: bits) (2 * i) =
        (1 - bit.1) * (1 - bit.2) * diagonal bits i := fun i => tensor_even _ _ i
    have odd : ∀ i, diagonal (bit :: bits) (2 * i + 1) = bit.1 * bit.2 * diagonal bits i :=
      fun i => tensor_odd _ _ i
    rw [List.length_cons, pow_succ] at fits
    rw [List.foldl_cons]
    rcases Nat.mod_two_eq_zero_or_one n with parity | parity
    · obtain ⟨m, rfl⟩ : ∃ m, n = 2 * m := ⟨n / 2, by omega⟩
      have width : divCeil (2 * m) 2 = m := by
        rw [divCeil]
        omega
      rw [prefixSum_even a b (by omega) even odd, ← ih _ _ (by omega) (by omega)]
      simp only [evalStep, if_pos parity, width]
    · obtain ⟨m, rfl⟩ : ∃ m, n = 2 * m + 1 := ⟨n / 2, by omega⟩
      have width : divCeil (2 * m + 1) 2 = m + 1 := by
        rw [divCeil]
        omega
      rw [prefixSum_odd a b m even odd, ← ih _ _ (by omega) (by omega)]
      simp only [evalStep, if_neg (show ¬ (2 * m + 1) % 2 = 0 by omega), width]

/-- **The diagonal from two scalars.** -/
theorem eval_eq {inputI inputJ : List E} {logn n : Nat} (longI : logn ≤ inputI.length)
    (longJ : logn ≤ inputJ.length) (positive : 0 < n) (fits : n ≤ 2 ^ logn) :
    (eval logn n inputI inputJ : Exec ε E) =
      .ok (∑ i ∈ range n, eqAt (inputI.take logn) i * eqAt (inputJ.take logn) i) := by
  have sizeI : (inputI.take logn).length = logn := List.length_take_of_le longI
  have sizeJ : (inputJ.take logn).length = logn := List.length_take_of_le longJ
  have size : ((inputI.take logn).zip (inputJ.take logn)).length = logn := by
    rw [List.length_zip, sizeI, sizeJ, min_self]
  have loop := foldl_evalStep ((inputI.take logn).zip (inputJ.take logn)) 1 1 positive
    (size.symm ▸ fits)
  obtain ⟨m, rfl⟩ := Nat.exists_eq_succ_of_ne_zero positive.ne'
  rw [eval, ensure_of ⟨longI, longJ⟩, ok_bind]
  refine congrArg Except.ok (loop.trans ?_)
  rw [prefixSum, Nat.succ_sub_one, one_mul, one_mul, ← sum_range_succ]
  exact sum_congr rfl fun i _ => diagonal_zip (sizeI.trans sizeJ.symm) i

/-! ### Binding in place -/

/-- Bind in place, with the loop over the array. -/
def bindInPlace (v : List E) (r : E) : Exec ε (List E) := do
  ensure (v ≠ []) "vector length must be >= 1 in bind"
  halveInPlace (affineInterpolation r) (affineInterpolationNzZ r) v

/-- Bind the first `logv` coordinates, the low bit first. -/
def Dense.bindAll (logv : Nat) (v r : List E) : Exec ε (List E) := do
  ensure (v ≠ []) "vector length must be >= 1 in bind_all"
  ensure (SaneLogw logv) "logv must be sane"
  ensure (v.length ≤ 2 ^ logv) ("size of wires " ++ toString v.length ++ " exceeds 2^logw " ++
    toString (2 ^ logv))
  (r.take logv).foldlM bindInPlace v

theorem pairUp_eq_bindPairs (r : E) (v : List E) :
    pairUp (affineInterpolation r) (affineInterpolationNzZ r) v = bindPairs r v := by
  induction v using bindPairs.induct with
  | case1 => rfl
  | case2 a => rfl
  | case3 a b rest ih => rw [pairUp, bindPairs, ih]

/-- **Binding in place** is binding. -/
theorem bindInPlace_eq (nonempty : v ≠ []) (r : E) :
    (bindInPlace v r : Exec ε _) = .ok (foldWith (1 - r) r v) := by
  rw [bindInPlace, ensure_of nonempty, ok_bind, halveInPlace_eq, pairUp_eq_bindPairs, bindPairs_eq]

theorem foldlM_bindInPlace (point : List E) (nonempty : v ≠ []) :
    (point.foldlM bindInPlace v : Exec ε _) =
      .ok (foldAll (point.map fun z => (1 - z, z)) v) := by
  induction point generalizing v with
  | nil => rfl
  | cons z point ih =>
    have left : foldWith (1 - z) z v ≠ [] := by
      have size := length_foldWith (1 - z) z v
      have positive := List.length_pos_of_ne_nil nonempty
      exact List.ne_nil_of_length_pos (by omega)
    rw [List.foldlM_cons, bindInPlace_eq nonempty, ok_bind, ih left]
    rfl

/-- **Binding all coordinates** leaves the value of the extension. -/
theorem Dense.bindAll_eq {point : List E} {logv : Nat} (nonempty : v ≠ []) (sane : SaneLogw logv)
    (fits : v.length ≤ 2 ^ logv) (long : logv ≤ point.length) :
    (Dense.bindAll logv v point : Exec ε _) = .ok [extension (point.take logv) v] := by
  have size : (point.take logv).length = logv := List.length_take_of_le long
  rw [Dense.bindAll, ensure_of nonempty, ok_bind, ensure_of sane, ok_bind, ensure_of fits, ok_bind,
    foldlM_bindInPlace _ nonempty, foldAll_eq _ nonempty (by rwa [List.length_map, size])]
  simp only [List.length_map, extension, eqAt_eq_tensor]

end Longfellow.SumcheckV1

namespace Longfellow.SumcheckV2

open Lib Finset

variable {ε E : Type} [CommRing E]

/-- The monomial of an index at a point: `z` for a set bit. -/
def monomialAt (point : List E) (i : Nat) : E :=
  ∏ j ∈ range point.length, if i.testBit j then point.getD j 0 else 1

/-- The value at a point of the multilinear polynomial with the given coefficients. -/
def multilinear (point v : List E) : E :=
  ∑ i ∈ range (2 ^ point.length), monomialAt point i * v.getD i 0

theorem monomialAt_eq_tensor (point : List E) (i : Nat) :
    monomialAt point i = tensor (point.map fun z => (1, z)) i := by
  rw [tensor_eq_prod, List.length_map, monomialAt]
  refine prod_congr rfl fun j member => ?_
  have bound : j < point.length := mem_range.mp member
  rw [List.getD_eq_getElem _ _ bound, List.getD_eq_getElem _ _ (by simpa using bound),
    List.getElem_map]

/-- Bind the low variable in place, with the loop over the array. -/
def bindInPlace (v : List E) (z : E) : Exec ε (List E) := do
  ensure (v ≠ []) "cannot bind an empty vector"
  halveInPlace (fun v0 v1 => v0 + z * v1) id v

theorem pairUp_eq_foldWith (z : E) (v : List E) :
    pairUp (fun v0 v1 => v0 + z * v1) id v = foldWith 1 z v := by
  induction v using foldWith.induct with
  | case1 => rfl
  | case2 a => rw [pairUp, foldWith, one_mul, id]
  | case3 a b rest ih => rw [pairUp, foldWith, ih, one_mul]

/-- **Binding in place** of a table of coefficients. -/
theorem bindInPlace_eq (nonempty : v ≠ []) (z : E) :
    (bindInPlace v z : Exec ε _) = .ok (foldWith 1 z v) := by
  rw [bindInPlace, ensure_of nonempty, ok_bind, halveInPlace_eq, pairUp_eq_foldWith]

theorem foldlM_bindInPlace (point : List E) (nonempty : v ≠ []) :
    (point.foldlM bindInPlace v : Exec ε _) = .ok (foldAll (point.map fun z => (1, z)) v) := by
  induction point generalizing v with
  | nil => rfl
  | cons z point ih =>
    have left : foldWith 1 z v ≠ [] := by
      have size := length_foldWith 1 z v
      have positive := List.length_pos_of_ne_nil nonempty
      exact List.ne_nil_of_length_pos (by omega)
    rw [List.foldlM_cons, bindInPlace_eq nonempty, ok_bind, ih left]
    rfl

theorem foldlM_bindInPlace_eq {point : List E} (nonempty : v ≠ [])
    (fits : v.length ≤ 2 ^ point.length) :
    (point.foldlM bindInPlace v : Exec ε _) = .ok [multilinear point v] := by
  rw [foldlM_bindInPlace _ nonempty, foldAll_eq _ nonempty (by rwa [List.length_map])]
  simp only [List.length_map, multilinear, monomialAt_eq_tensor]

theorem weights_getElem? {point : List E} {logn n : Nat} (sane : Longfellow.SaneLogw logn)
    (long : logn ≤ point.length) (fits : n ≤ 2 ^ logn) :
    ∃ table, (weights logn n point : Exec String _) = .ok table ∧ table.length = n ∧
      ∀ i < n, table[i]? = some (monomialAt (point.take logn) i) := by
  have size : (point.take logn).length = logn := List.length_take_of_le long
  have whole : (weights logn n point : Exec String _) = weights logn n (point.take logn) := by
    rw [weights, weights, ensure_of (⟨sane, long⟩ : Longfellow.SaneLogw logn ∧ _),
      ensure_of (⟨sane, size.ge⟩ : Longfellow.SaneLogw logn ∧ _), List.take_take, min_self]
  refine ⟨_, whole.trans (weights_eq sane size fits), by simp, fun i below => ?_⟩
  rw [monomials, tensors, List.getElem?_map, List.getElem?_range below, monomialAt_eq_tensor]
  rfl

end Longfellow.SumcheckV2

namespace Longfellow.SumcheckV1

open Lib Finset

variable {ε E : Type} [CommRing E]

/-- **Tables of any size** are the padded tables: the weights of a pair of claims, the diagonal, and
the bindings of both versions, one variable and all of them. -/
theorem padded_tables {n logn : Nat} (positive : 1 ≤ n) (fits : n ≤ 2 ^ logn) {g0 g1 : List E}
    (long0 : logn ≤ g0.length) (long1 : logn ≤ g1.length) (alpha : E) {v : List E}
    (size : v.length = n) :
    (logn ≤ 64 → ∃ table, (eq2 logn n g0 g1 alpha : Exec ε _) = .ok table ∧ table.length = n ∧
      ∀ i < n, table[i]? = some (eqAt (g0.take logn) i + alpha * eqAt (g1.take logn) i)) ∧
    (eval logn n g0 g1 : Exec ε E) =
      .ok (∑ i ∈ range n, eqAt (g0.take logn) i * eqAt (g1.take logn) i) ∧
    (∀ r, ∃ w, (bindInPlace v r : Exec ε _) = .ok w ∧ (bindOutOfPlace v r : Exec ε _) = .ok w ∧
      w.length = divCeil n 2 ∧
      ∀ i, w.getD i 0 = (1 - r) * v.getD (2 * i) 0 + r * v.getD (2 * i + 1) 0) ∧
    (SaneLogw logn → (Dense.bindAll logn v g0 : Exec ε _) = .ok [extension (g0.take logn) v]) ∧
    (∀ z, ∃ w, (SumcheckV2.bindInPlace v z : Exec ε _) = .ok w ∧ w.length = divCeil n 2 ∧
      ∀ i, w.getD i 0 = v.getD (2 * i) 0 + z * v.getD (2 * i + 1) 0) ∧
    ((g0.take logn).foldlM SumcheckV2.bindInPlace v : Exec ε _) =
      .ok [SumcheckV2.multilinear (g0.take logn) v] ∧
    (SaneLogw logn → ∃ table, (SumcheckV2.weights logn n g0 : Exec String _) = .ok table ∧
      table.length = n ∧ ∀ i < n, table[i]? = some (SumcheckV2.monomialAt (g0.take logn) i)) := by
  have nonempty : v ≠ [] := List.ne_nil_of_length_pos (by omega)
  have point : (g0.take logn).length = logn := List.length_take_of_le long0
  subst size
  refine ⟨fun _ => eq2_getElem? long0 long1 positive fits alpha, eval_eq long0 long1 positive fits,
    fun r => ⟨_, bindInPlace_eq nonempty r, bindOutOfPlace_eq nonempty r, length_foldWith .., ?_⟩,
    fun sane => Dense.bindAll_eq nonempty sane fits long0,
    fun z => ⟨_, SumcheckV2.bindInPlace_eq nonempty z, length_foldWith .., fun i => ?_⟩,
    SumcheckV2.foldlM_bindInPlace_eq nonempty (point.symm ▸ fits),
    fun sane => SumcheckV2.weights_getElem? sane long0 fits⟩
  · exact getD_foldWith _ _ v
  · rw [getD_foldWith, one_mul]

/-- Three entries under two challenges. -/
theorem padded_tables_three :
    (eval 2 3 [5, 7] [2, 3] : Exec Unit ℤ) = .ok (∑ i ∈ range 3, eqAt [5, 7] i * eqAt [2, 3] i) ∧
      (Dense.bindAll 2 [1, 2, 4] [5, 7] : Exec Unit (List ℤ)) = .ok [extension [5, 7] [1, 2, 4]] := by
  have all := @padded_tables Unit ℤ _ 3 2 (by decide) (by decide) [5, 7] [2, 3] (by decide)
    (by decide) 1 [1, 2, 4] rfl
  exact ⟨all.2.1, all.2.2.2.1 (by decide)⟩

/-- A width that is not supported is refused. -/
theorem bindAll_wide : ¬ ∀ (n logn : Nat) (v point : List ℤ), 1 ≤ n → n ≤ 2 ^ logn → v.length = n →
    logn ≤ point.length →
    (Dense.bindAll logn v point : Exec Unit _) = .ok [extension (point.take logn) v] := by
  intro all
  have refused : (Dense.bindAll 41 [1] (List.replicate 41 0) : Exec Unit (List ℤ)) =
      abort "logv must be sane" := rfl
  have returned := all 1 41 [1] (List.replicate 41 0) (by decide) (by decide) rfl (by decide)
  rw [refused] at returned
  exact abort_ne_ok _ _ returned

end Longfellow.SumcheckV1
