/-
**Dense tables** (`runtime/sumcheck-v1/src/dense.rs`, `runtime/sumcheck-v1/src/eq.rs`).

A witness is a table of values on the Boolean cube, bound one coordinate at a time by
`(1 - z) even + z odd`; the weights of a pair of claims are a combination of two tables of equality
weights.

* `eq2_eq` — **the table of weights**; `eq2_returns` — it returns for every width.
-/

import Longfellow.Lib.Multilinear

namespace Longfellow.SumcheckV1

open Lib

variable {ε E : Type} [CommRing E]

/-! ### Binding -/

/-- The line through `f0` at zero and `f1` at one. -/
def affineInterpolation (r f0 f1 : E) : E := f0 + (f1 - f0) * r

/-- The line through zero at zero and `f1` at one. -/
def affineInterpolationZNz (r f1 : E) : E := f1 * r

/-- The line through `f0` at zero and zero at one. -/
def affineInterpolationNzZ (r f0 : E) : E := f0 - f0 * r

/-- Bind the low coordinate of a table. -/
def bindPairs (r : E) : List E → List E
  | [] => []
  | [a] => [affineInterpolationNzZ r a]
  | a :: b :: rest => affineInterpolation r a b :: bindPairs r rest

/-- Bind in place. -/
def bind (v : List E) (r : E) : Exec ε (List E) := do
  ensure (v ≠ []) "vector length must be >= 1 in bind"
  pure (bindPairs r v)

/-- Bind to a new table. -/
def bindOutOfPlace (v : List E) (r : E) : Exec ε (List E) := do
  ensure (v ≠ []) "vector length must be >= 1 in bind_out_of_place"
  pure (bindPairs r v)

/-- A table has at least one entry. -/
def normalize (v : List E) : List E := if v = [] then [0] else v

/-- The scalar that is left of a table. -/
def asScalar (v : List E) : Exec ε E := do
  ensure (v.length = 1) "vector length must be 1"
  getAt v 0

theorem bindPairs_eq (r : E) (v : List E) : bindPairs r v = foldWith (1 - r) r v := by
  induction v using bindPairs.induct with
  | case1 => rfl
  | case2 a =>
    rw [bindPairs, foldWith, affineInterpolationNzZ]
    congr 1
    ring
  | case3 a b rest ih =>
    rw [bindPairs, foldWith, ih, affineInterpolation]
    congr 1
    ring

variable {v : List E}

theorem bind_eq (nonempty : v ≠ []) (r : E) :
    (bind v r : Exec ε _) = .ok (foldWith (1 - r) r v) := by
  rw [bind, ensure_of nonempty, ok_bind, bindPairs_eq, pure_eq_ok]

theorem bindOutOfPlace_eq (nonempty : v ≠ []) (r : E) :
    (bindOutOfPlace v r : Exec ε _) = .ok (foldWith (1 - r) r v) := by
  rw [bindOutOfPlace, ensure_of nonempty, ok_bind, bindPairs_eq, pure_eq_ok]

omit [CommRing E] in
theorem asScalar_singleton (a : E) : (asScalar [a] : Exec ε E) = .ok a := rfl

theorem normalize_of_ne (nonempty : v ≠ []) : normalize v = v := if_neg nonempty

/-! ### Equality weights -/

/-- Fill `n` entries with `w0 eq(g0, i) + w1 eq(g1, i)`, splitting on the highest of `l` bits. -/
def fillRecursive (g0 g1 : List E) : Nat → Nat → E → E → Exec ε (List E)
  | 0, n, w0, w1 =>
    if n = 0 then abort "index out of bounds" else pure ((w0 + w1) :: List.replicate (n - 1) 0)
  | nl + 1, n, w0, w1 => do
    ensure (nl + 1 ≤ g0.length ∧ nl + 1 ≤ g1.length ∧ n ≠ 0) ("assertion failed: eq.len() >= n " ++
      "&& g0.len() >= l && g1.len() >= l && (l == 0 || !eq.is_empty())")
    let z0 ← getAt g0 nl
    let z1 ← getAt g1 nl
    let w0hi := w0 * z0
    let w1hi := w1 * z1
    if 2 ^ nl < n then do
      let lo ← fillRecursive g0 g1 nl (2 ^ nl) (w0 - w0hi) (w1 - w1hi)
      let hi ← fillRecursive g0 g1 nl (n - 2 ^ nl) w0hi w1hi
      pure (lo ++ hi)
    else fillRecursive g0 g1 nl n (w0 - w0hi) (w1 - w1hi)

/-- The weights `eq(g0, i) + alpha eq(g1, i)` for `i` below `n`. -/
def eq2 (logn n : Nat) (g0 g1 : List E) (alpha : E) : Exec ε (List E) :=
  fillRecursive g0 g1 logn n 1 alpha

variable {g0 g1 : List E} {l : Nat}

variable {n : Nat}

theorem fillRecursive_succ (long0 : l < g0.length) (long1 : l < g1.length) (positive : 0 < n)
    (w0 w1 : E) :
    (fillRecursive g0 g1 (l + 1) n w0 w1 : Exec ε _) =
      if 2 ^ l < n then do
        let lo ← fillRecursive g0 g1 l (2 ^ l) (w0 - w0 * g0[l]) (w1 - w1 * g1[l])
        let hi ← fillRecursive g0 g1 l (n - 2 ^ l) (w0 * g0[l]) (w1 * g1[l])
        pure (lo ++ hi)
      else fillRecursive g0 g1 l n (w0 - w0 * g0[l]) (w1 - w1 * g1[l]) := by
  rw [fillRecursive, ensure_of ⟨long0, long1, positive.ne'⟩, ok_bind, getAt_of_lt long0, ok_bind,
    getAt_of_lt long1, ok_bind]

theorem fillRecursive_returns (long0 : l ≤ g0.length) (long1 : l ≤ g1.length) (positive : 0 < n)
    (w0 w1 : E) :
    ∃ table, (fillRecursive g0 g1 l n w0 w1 : Exec ε _) = .ok table ∧ table.length = n := by
  induction l generalizing n w0 w1 with
  | zero =>
    refine ⟨_, if_neg positive.ne', ?_⟩
    rw [List.length_cons, List.length_replicate]
    omega
  | succ l ih =>
    rw [fillRecursive_succ long0 long1 positive]
    by_cases high : 2 ^ l < n
    · obtain ⟨lo, ranLo, sizeLo⟩ := ih (by omega) (by omega) (Nat.two_pow_pos l)
        (w0 - w0 * g0[l]) (w1 - w1 * g1[l])
      obtain ⟨hi, ranHi, sizeHi⟩ := ih (by omega) (by omega) (show 0 < n - 2 ^ l by omega)
        (w0 * g0[l]) (w1 * g1[l])
      refine ⟨lo ++ hi, ?_, ?_⟩
      · rw [if_pos high, ranLo, ok_bind, ranHi, ok_bind, pure_eq_ok]
      · rw [List.length_append, sizeLo, sizeHi]
        omega
    · rw [if_neg high]
      exact ih (by omega) (by omega) positive _ _

/-- Only the first `l` coordinates are read. -/
theorem fillRecursive_take {m : Nat} (short : l ≤ m) (long0 : m ≤ g0.length) (long1 : m ≤ g1.length)
    (n : Nat) (w0 w1 : E) :
    (fillRecursive (g0.take m) (g1.take m) l n w0 w1 : Exec ε _) = fillRecursive g0 g1 l n w0 w1 := by
  induction l generalizing n w0 w1 with
  | zero => rfl
  | succ l ih =>
    by_cases zero : n = 0
    · rw [fillRecursive, fillRecursive, ensure, ensure, if_neg (by simp [zero]),
        if_neg (by simp [zero])]
      rfl
    · have size0 : (g0.take m).length = m := List.length_take_of_le long0
      have size1 : (g1.take m).length = m := List.length_take_of_le long1
      rw [fillRecursive_succ (by omega) (by omega) (Nat.pos_of_ne_zero zero),
        fillRecursive_succ (by omega) (by omega) (Nat.pos_of_ne_zero zero)]
      simp only [List.getElem_take, ih (by omega)]

theorem eqWeights_concat_low (point : List E) (z : E) (low : n ≤ 2 ^ point.length) :
    eqWeights (point ++ [z]) n = (eqWeights point n).map (· * (1 - z)) := by
  unfold eqWeights
  rw [List.map_append, List.map_singleton, tensors_append_low _ _ (by simpa using low)]

theorem eqWeights_concat_high (point : List E) (z : E) {m : Nat} (low : m ≤ 2 ^ point.length) :
    eqWeights (point ++ [z]) (2 ^ point.length + m) =
      (eqWeights point (2 ^ point.length)).map (· * (1 - z)) ++
        (eqWeights point m).map (· * z) := by
  have split := tensors_append_high (point.map fun z => (1 - z, z)) (1 - z, z) (m := m)
    (by simpa using low)
  rw [List.length_map] at split
  unfold eqWeights
  rw [List.map_append, List.map_singleton, split]

theorem zipWith_scaled (w0 w1 c0 c1 : E) (x y : List E) :
    List.zipWith (fun a b => w0 * a + w1 * b) (x.map (· * c0)) (y.map (· * c1)) =
      List.zipWith (fun a b => w0 * c0 * a + w1 * c1 * b) x y := by
  rw [List.zipWith_map]
  congr 1
  funext a b
  ring

section

variable (long0 : l ≤ g0.length) (long1 : l ≤ g1.length)
include long0 long1

/-- **The table of weights.** -/
theorem fillRecursive_eq (positive : 0 < n) (fits : n ≤ 2 ^ l) (w0 w1 : E) :
    (fillRecursive g0 g1 l n w0 w1 : Exec ε _) =
      .ok (List.zipWith (fun a b => w0 * a + w1 * b) (eqWeights (g0.take l) n)
        (eqWeights (g1.take l) n)) := by
  induction l generalizing n w0 w1 with
  | zero =>
    obtain rfl : n = 1 := by
      rw [pow_zero] at fits
      omega
    simp [fillRecursive, eqWeights, tensors, tensor]
  | succ l ih =>
    have size0 : (g0.take l).length = l := List.length_take_of_le (by omega)
    have size1 : (g1.take l).length = l := List.length_take_of_le (by omega)
    have lo : ∀ w z : E, w - w * z = w * (1 - z) := fun w z => by ring
    rw [pow_succ] at fits
    rw [fillRecursive_succ long0 long1 positive, List.take_succ_eq_append_getElem long0,
      List.take_succ_eq_append_getElem long1]
    by_cases high : 2 ^ l < n
    · obtain ⟨m, rfl⟩ := Nat.exists_eq_add_of_le high.le
      have low : m ≤ 2 ^ l := by omega
      have split0 := eqWeights_concat_high (g0.take l) g0[l] (size0.symm ▸ low)
      have split1 := eqWeights_concat_high (g1.take l) g1[l] (size1.symm ▸ low)
      rw [size0] at split0
      rw [size1] at split1
      rw [if_pos high, ih (by omega) (by omega) (Nat.two_pow_pos l) le_rfl, ok_bind,
        Nat.add_sub_cancel_left, ih (by omega) (by omega) (by omega) low, ok_bind, pure_eq_ok,
        split0, split1, List.zipWith_append (by simp), zipWith_scaled, zipWith_scaled, lo, lo]
    · have low : n ≤ 2 ^ l := by omega
      rw [if_neg high, ih (by omega) (by omega) positive low,
        eqWeights_concat_low _ _ (size0.symm ▸ low), eqWeights_concat_low _ _ (size1.symm ▸ low),
        zipWith_scaled, lo, lo]

theorem eq2_returns (positive : 0 < n) (alpha : E) :
    ∃ table, (eq2 l n g0 g1 alpha : Exec ε _) = .ok table ∧ table.length = n :=
  fillRecursive_returns long0 long1 positive 1 alpha

theorem eq2_take (n : Nat) (alpha : E) :
    (eq2 l n (g0.take l) (g1.take l) alpha : Exec ε _) = eq2 l n g0 g1 alpha :=
  fillRecursive_take le_rfl long0 long1 n 1 alpha

end

/-- **The weights of a pair of claims**, through their inner products. -/
theorem eq2_eq (size0 : g0.length = l) (size1 : g1.length = l) (positive : 0 < n) (fits : n ≤ 2 ^ l)
    (alpha : E) :
    ∃ table, (eq2 l n g0 g1 alpha : Exec ε _) = .ok table ∧ table.length = n ∧
      ∀ v, dot table v = dot (eqWeights g0 n) v + alpha * dot (eqWeights g1 n) v := by
  have whole0 : g0.take l = g0 := List.take_of_length_le size0.le
  have whole1 : g1.take l = g1 := List.take_of_length_le size1.le
  refine ⟨_, fillRecursive_eq size0.ge size1.ge positive fits 1 alpha, by simp, fun v => ?_⟩
  simp only [whole0, whole1, one_mul]
  exact dot_axpy alpha v (by simp)

end Longfellow.SumcheckV1
