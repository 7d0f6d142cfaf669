/-
**What the additive Fourier transform computes** (`runtime/algebra/src/lch14.rs`).

The table of a basis whose elements are no sums of each other holds the normalized subspace
polynomials. The transforms then take coefficients in the novel polynomial basis to the values of the
polynomial, and back; values at some points and the other coefficients have exactly one polynomial.

* `existsUnique_of_exchange` — **the polynomial of some values and some coefficients**.
-/

import Longfellow.Algebra.Lch14
import Longfellow.Lib.Chunks
import Longfellow.Lib.Subspace

namespace Longfellow.Lch14

open Lib Lib.Subspace Polynomial

variable {ε E : Type} [Field E] [CharP E 2] {basis : List E} {g : Lch14 E} {i l coset : ℕ}

theorem subspace_eq (basis : List E) (i : ℕ) (x : E) :
    subspace basis i x = (vanishing basis i).eval x := by
  induction i generalizing x with
  | zero => rw [vanishing_zero, eval_X, subspace]
  | succ i ih => rw [subspace, ih, ih, vanishing_succ, eval_mul, eval_add, eval_C]

/-- **The table** of a basis. -/
theorem new_valid {invert : E → Exec ε E} (inverts : ∀ e, e ≠ 0 → ∃ c, invert e = .ok c ∧ c * e = 1)
    (some : basis ≠ []) (independent : Independent basis) :
    ∃ g, new invert basis = .ok g ∧ g.dimension = basis.length ∧ g.Valid ∧
      ∀ i < basis.length, g.factor i = fun u => (normalized basis i).eval (point basis u) := by
  obtain ⟨scale, unit, ran⟩ := new_returns some fun i inside => inverts _ (by
    rw [subspace_eq]
    exact eval_diagonal_ne_zero independent inside)
  have row : ∀ i, (basis.map fun x => subspace basis i x * scale i).length = basis.length :=
    fun i => List.length_map _
  refine ⟨_, ran, rfl, ?_⟩
  set g : Lch14 E := ⟨basis.length, (List.range basis.length).flatMap fun i =>
    basis.map fun x => subspace basis i x * scale i⟩
  have entries : ∀ i < basis.length, ∀ j < basis.length,
      g.entry i j = (normalized basis i).eval (basis.getD j 0) := by
    intro i rowInside j columnInside
    have inverse : scale i = ((vanishing basis i).eval (basis.getD i 0))⁻¹ := by
      refine eq_inv_of_mul_eq_one_left ?_
      rw [← subspace_eq, unit i rowInside]
    rw [entry, Nat.mul_comm, getD_flatMap_of_length (fun i _ => row i)
        (by rw [List.length_range]; exact rowInside) columnInside, List.getElem_range,
      eval_normalized, List.getD_eq_getElem _ _ (by rw [List.length_map]; exact columnInside),
      List.getElem_map, List.getD_eq_getElem _ _ columnInside, subspace_eq, inverse, mul_comm]
  have factors : ∀ i < basis.length,
      g.factor i = fun u => (normalized basis i).eval (point basis u) := by
    intro i inside
    funext u
    rw [factor, eval_normalized_point]
    refine Finset.sum_congr rfl fun k member => ?_
    rw [entries i inside k (Finset.mem_range.mp member)]
  have size : g.table.length = g.dimension * g.dimension := by
    have total : ((List.range basis.length).flatMap fun i =>
        basis.map fun x => subspace basis i x * scale i).length = basis.length * basis.length := by
      simp [List.length_flatMap]
    exact total
  refine ⟨⟨size, ?_⟩, factors⟩
  have known := Subspace.twiddles independent
  exact
    { xor := fun i inside u small v small' => by
        rw [factors i inside]
        exact known.xor i inside u small v small'
      low := fun i inside v small => by
        rw [factors i inside]
        exact known.low i inside v small
      unit := fun i inside => by
        rw [factors i inside]
        exact known.unit i inside }

/-- The values at the points of a coset of the polynomial with some coefficients. -/
noncomputable def valuesOf (basis : List E) (l coset : ℕ) (c : List E) : List E :=
  (List.range (2 ^ l)).map fun j => (novel basis l c).eval (point basis (coset ^^^ j))

omit [CharP E 2] in
theorem length_valuesOf (c : List E) : (valuesOf basis l coset c).length = 2 ^ l := by
  simp [valuesOf]

omit [CharP E 2] in
theorem valuesOf_eq (bound : l ≤ basis.length)
    (factors : ∀ i < basis.length, g.factor i = fun u => (normalized basis i).eval (point basis u))
    (c : List E) : AdditiveFft.values g.factor l coset c = valuesOf basis l coset c := by
  rw [AdditiveFft.values_congr fun i below => factors i (below.trans_le bound)]
  exact List.map_congr_left fun j _ => (eval_novel l c _).symm

/-! ### Values and coefficients -/

/-- Coefficients with some values at the first points of a coset, and some coefficients after as
many. -/
structure Consistent (basis : List E) (l coset : ℕ) (v known c : List E) : Prop where
  size : c.length = 2 ^ l
  values : (valuesOf basis l coset c).take v.length = v
  coefficients : c.drop v.length = known

/-- The same, for the last points. -/
structure ConsistentSuffix (basis : List E) (l coset : ℕ) (v known c : List E) : Prop where
  size : c.length = 2 ^ l
  values : (valuesOf basis l coset c).drop (2 ^ l - v.length) = v
  coefficients : c.drop v.length = known

section Finite

variable [Finite E]

omit [Field E] [CharP E 2] in
theorem exists_of_injective {n : ℕ} {f : List E → List E} (size : ∀ c, c.length = n → (f c).length = n)
    (injective : ∀ c c', c.length = n → c'.length = n → f c = f c' → c = c') {b : List E}
    (sizeB : b.length = n) : ∃ c, c.length = n ∧ f c = b := by
  let onVectors : List.Vector E n → List.Vector E n := fun c => ⟨f c.1, size c.1 c.2⟩
  have surjective : Function.Surjective onVectors := Finite.surjective_of_injective fun c c' same =>
    Subtype.ext (injective c.1 c'.1 c.2 c'.2 (congrArg Subtype.val same))
  obtain ⟨c, same⟩ := surjective ⟨b, sizeB⟩
  exact ⟨c.1, c.2, congrArg Subtype.val same⟩

omit [Field E] [CharP E 2] in
/-- **Exactly one vector of coefficients** has some values and some coefficients, when a program
finds the others. -/
theorem existsUnique_of_exchange {n k : ℕ} {run : List E → Exec ε (List E)}
    (first : List E → List E) {last : List E → List E} (size : ∀ c, c.length = n → (first c).length = k)
    (exchange : ∀ c, c.length = n → ∀ rest,
      run (first c ++ c.drop k ++ rest) = .ok (c.take k ++ last c ++ rest))
    (inside : k ≤ n) {v known : List E} (sizeV : v.length = k) (sizeK : known.length = n - k) :
    ∃ c, (c.length = n ∧ first c = v ∧ c.drop k = known) ∧
      (∀ c', c'.length = n → first c' = v → c'.drop k = known → c' = c) ∧
      ∀ rest, run (v ++ known ++ rest) = .ok (c.take k ++ last c ++ rest) := by
  have unique : ∀ c c', c.length = n → c'.length = n → first c = first c' →
      c.drop k = c'.drop k → c = c' := by
    intro c c' sizeC sizeC' values coefficients
    have ran := exchange c sizeC []
    rw [values, coefficients, exchange c' sizeC' [], List.append_nil, List.append_nil] at ran
    have taken := (List.append_inj (Except.ok.inj ran) (by simp [sizeC, sizeC'])).1
    rw [← List.take_append_drop k c, ← List.take_append_drop k c', taken, coefficients]
  obtain ⟨c, sizeC, same⟩ := exists_of_injective (n := n) (f := fun c => first c ++ c.drop k)
    (b := v ++ known)
    (fun c sizeC => by rw [List.length_append, size c sizeC, List.length_drop]; omega)
    (fun c c' sizeC sizeC' same => by
      obtain ⟨values, coefficients⟩ := List.append_inj same
        ((size c sizeC).trans (size c' sizeC').symm)
      exact unique c c' sizeC sizeC' values coefficients)
    (by rw [List.length_append]; omega)
  obtain ⟨values, coefficients⟩ := List.append_inj same ((size c sizeC).trans sizeV.symm)
  refine ⟨c, ⟨sizeC, values, coefficients⟩, fun c' sizeC' values' coefficients' => ?_, fun rest => ?_⟩
  · exact unique c' c sizeC' sizeC (values'.trans values.symm)
      (coefficients'.trans coefficients.symm)
  · rw [← exchange c sizeC rest, values, coefficients]

end Finite

/-! ### The transforms -/

/-- What the transforms compute, for every coset of up to all points. -/
structure Transforms (ε : Type) (basis : List E) (g : Lch14 E) : Prop where
  fft : ∀ {l coset : ℕ} {c : List E}, l ≤ basis.length → coset < 2 ^ basis.length →
    c.length = 2 ^ l → ∀ rest,
      g.fft l coset (c ++ rest) = (.ok (valuesOf basis l coset c ++ rest) : Exec ε (List E))
  ifft : ∀ {l coset : ℕ} {c : List E}, l ≤ basis.length → coset < 2 ^ basis.length →
    c.length = 2 ^ l → ∀ rest,
      g.ifft l coset (valuesOf basis l coset c ++ rest) = (.ok (c ++ rest) : Exec ε (List E))
  fft_ifft : ∀ {l coset : ℕ} {v : List E}, l ≤ basis.length → coset < 2 ^ basis.length →
    v.length = 2 ^ l → ∃ c, c.length = 2 ^ l ∧ ∀ rest,
      g.ifft l coset (v ++ rest) = (.ok (c ++ rest) : Exec ε (List E)) ∧
      g.fft l coset (c ++ rest) = (.ok (v ++ rest) : Exec ε (List E))
  bidirectional : ∀ {l coset k : ℕ} {v known : List E}, l ≤ basis.length →
    coset < 2 ^ basis.length → k ≤ 2 ^ l → v.length = k → known.length = 2 ^ l - k →
    ∃ c, Consistent basis l coset v known c ∧
      (∀ c', Consistent basis l coset v known c' → c' = c) ∧ ∀ rest,
        g.bidirectionalFftOnCoset l coset k (v ++ known ++ rest) =
          (.ok (c.take k ++ (valuesOf basis l coset c).drop k ++ rest) : Exec ε (List E))
  suffix : ∀ {l coset k : ℕ} {v known : List E}, l ≤ basis.length →
    coset < 2 ^ basis.length → k ≤ 2 ^ l → v.length = k → known.length = 2 ^ l - k →
    ∃ c, ConsistentSuffix basis l coset v known c ∧
      (∀ c', ConsistentSuffix basis l coset v known c' → c' = c) ∧ ∀ rest,
        g.bidirectionalFftSuffixOnCoset l coset k (v ++ known ++ rest) =
          (.ok (c.take k ++ (valuesOf basis l coset c).take (2 ^ l - k) ++ rest) : Exec ε (List E))

omit [CharP E 2] in
/-- **The transforms**, over a table of the normalized polynomials. -/
theorem transforms [Finite E] (valid : g.Valid) (dimension : g.dimension = basis.length)
    (factors : ∀ i < basis.length,
      g.factor i = fun u => (normalized basis i).eval (point basis u)) :
    Transforms ε basis g where
  fft {l coset c} bound point size rest := by
    rw [← valuesOf_eq bound factors]
    exact fft_returns valid (dimension ▸ bound) (dimension ▸ point) size rest
  ifft {l coset c} bound point size rest := by
    rw [← valuesOf_eq bound factors]
    exact ifft_returns valid (dimension ▸ bound) (dimension ▸ point) size rest
  fft_ifft {l coset v} bound point size := by
    have forward : ∀ c : List E, c.length = 2 ^ l → ∀ rest, g.fft l coset (c ++ rest) =
        (.ok (AdditiveFft.values g.factor l coset c ++ rest) : Exec ε (List E)) :=
      fun c size => fft_returns valid (dimension ▸ bound) (dimension ▸ point) size
    have backward : ∀ c : List E, c.length = 2 ^ l → ∀ rest,
        g.ifft l coset (AdditiveFft.values g.factor l coset c ++ rest) =
          (.ok (c ++ rest) : Exec ε (List E)) :=
      fun c size => ifft_returns valid (dimension ▸ bound) (dimension ▸ point) size
    obtain ⟨c, sizeC, rfl⟩ := exists_of_injective (f := AdditiveFft.values g.factor l coset)
      (fun c _ => AdditiveFft.length_values c)
      (fun c c' sizeC sizeC' same => by
        have ran := backward c sizeC []
        rw [same, backward c' sizeC' [], List.append_nil, List.append_nil] at ran
        exact (Except.ok.inj ran).symm) size
    exact ⟨c, sizeC, fun rest => ⟨backward c sizeC rest, forward c sizeC rest⟩⟩
  bidirectional {l coset k v known} bound point inside sizeV sizeK := by
    have exchange : ∀ c : List E, c.length = 2 ^ l → ∀ rest,
        g.bidirectionalFftOnCoset l coset k
            ((valuesOf basis l coset c).take k ++ c.drop k ++ rest) =
          (.ok (c.take k ++ (valuesOf basis l coset c).drop k ++ rest) : Exec ε (List E)) := by
      intro c size rest
      rw [← valuesOf_eq bound factors]
      exact bidirectionalFftOnCoset_returns valid (dimension ▸ bound) (dimension ▸ point) inside
        size rest
    obtain ⟨c, ⟨size, values, coefficients⟩, unique, ran⟩ := existsUnique_of_exchange
      (fun c => (valuesOf basis l coset c).take k)
      (fun c _ => by rw [List.length_take, length_valuesOf]; omega)
      exchange inside sizeV sizeK
    exact ⟨c, ⟨size, by rw [sizeV]; exact values, by rw [sizeV]; exact coefficients⟩,
      fun c' other => unique c' other.size (sizeV ▸ other.values) (sizeV ▸ other.coefficients), ran⟩
  suffix {l coset k v known} bound point inside sizeV sizeK := by
    have exchange : ∀ c : List E, c.length = 2 ^ l → ∀ rest,
        g.bidirectionalFftSuffixOnCoset l coset k
            ((valuesOf basis l coset c).drop (2 ^ l - k) ++ c.drop k ++ rest) =
          (.ok (c.take k ++ (valuesOf basis l coset c).take (2 ^ l - k) ++ rest) :
            Exec ε (List E)) := by
      intro c size rest
      rw [← valuesOf_eq bound factors]
      exact bidirectionalFftSuffixOnCoset_returns valid (dimension ▸ bound) (dimension ▸ point)
        inside size rest
    obtain ⟨c, ⟨size, values, coefficients⟩, unique, ran⟩ := existsUnique_of_exchange
      (fun c => (valuesOf basis l coset c).drop (2 ^ l - k))
      (fun c _ => by rw [List.length_drop, length_valuesOf]; omega)
      exchange inside sizeV sizeK
    exact ⟨c, ⟨size, by rw [sizeV]; exact values, by rw [sizeV]; exact coefficients⟩,
      fun c' other => unique c' other.size (sizeV ▸ other.values) (sizeV ▸ other.coefficients), ran⟩

end Longfellow.Lch14
