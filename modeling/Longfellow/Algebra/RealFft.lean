/-
**What the real Fourier transform computes** (`runtime/algebra/src/rfft.rs`).

* `rfft_exact` — the transforms and **the cyclic convolution** over a field.
-/

import Longfellow.Algebra.RfftLevels
import Mathlib.Algebra.Field.ZMod
import Mathlib.Tactic.NormNum.Prime

namespace Longfellow

open Lib Gaussian

namespace Rfft

variable {ε E : Type} [CommRing E] {n : ℕ} {j : ℕ}

/-! ### Half-complex forms -/

/-- A transform, as it is stored. -/
def halfComplexForm (n : ℕ) (F : ℕ → Gaussian E) : List E := (List.range n).map (halfComplex n F)

@[simp] theorem length_halfComplexForm (n : ℕ) (F : ℕ → Gaussian E) :
    (halfComplexForm n F).length = n := by
  rw [halfComplexForm, List.length_map, List.length_range]

theorem getD_halfComplexForm (F : ℕ → Gaussian E) (inside : j < n) :
    (halfComplexForm n F).getD j 0 = halfComplex n F j := by
  rw [List.getD_eq_getElem _ _ (by rwa [length_halfComplexForm])]
  simp [halfComplexForm]

/-! ### The first transforms -/

theorem onPair_pair (f : (Fin 2 → E) → Fin 2 → E) (x y : E) :
    onPair f 0 1 [x, y] = (.ok [f ![x, y] 0, f ![x, y] 1] : Exec ε _) := by
  have cells : (fun d : Fin 2 => [x, y].getD (0 + d * 1) 0) = ![x, y] := by
    funext d
    fin_cases d <;> rfl
  have inside : ∀ d ∈ List.finRange 2, 0 + (d : ℕ) * 1 < [x, y].length :=
    show ∀ d ∈ List.finRange 2, 0 + (d : ℕ) * 1 < 2 by decide
  rw [onPair, onCells, ensure_of (by exact inside), ok_bind, cells, pure_eq_ok]
  rfl

theorem onColumn_four (f : (Fin 4 → E) → Fin 4 → E) (x y z u : E) :
    onColumn f 0 1 [x, y, z, u] = (.ok [f ![x, y, z, u] 0, f ![x, y, z, u] 1, f ![x, y, z, u] 2,
      f ![x, y, z, u] 3] : Exec ε _) := by
  have cells : (fun d : Fin 4 => [x, y, z, u].getD (0 + d * 1) 0) = ![x, y, z, u] := by
    funext d
    fin_cases d <;> rfl
  have inside : ∀ d ∈ List.finRange 4, 0 + (d : ℕ) * 1 < [x, y, z, u].length :=
    show ∀ d ∈ List.finRange 4, 0 + (d : ℕ) * 1 < 4 by decide
  rw [onColumn, onCells, ensure_of (by exact inside), ok_bind, cells, pure_eq_ok]
  rfl

variable {a b : List E} {w : Fp2Element E} {p : ℕ} {order : ℕ}

theorem getD_permuted {t : ℕ} (permuted : ∀ k < 2 ^ (p + t), b.getD k 0 = a.getD (reversed (p + t) k) 0)
    {Q : ℕ} (inside : Q < 2 ^ p) (small : j < 2 ^ t) :
    b.getD (Q * 2 ^ t + j) 0 = partOf a p Q (reversed t j) := by
  have below : Q * 2 ^ t + j < 2 ^ (p + t) := by
    have rows := Nat.mul_le_mul_right (2 ^ t) inside
    rw [Nat.succ_mul, ← pow_add] at rows
    omega
  rw [permuted _ below, reversed_add p Q small, partOf]

/-- What the first level makes of a chunk: its elements are replaced, and the kernel back returns a
multiple of them. -/
structure Replaced (undo : List E → Exec ε (List E)) (q : E) (made : List E → List E)
    (x y : List E) : Prop where
  made : y = made x
  undone : ∀ s : E, undo (y.map (s * ·)) = .ok (x.map (q * s * ·))

theorem halfComplex_two (x : ℕ → E) (small : j < 2) :
    [x 0 + x 1, x 0 - x 1].getD j 0 = halfComplex 2 (dft 2 (-1) x) j := by
  obtain rfl | rfl : j = 0 ∨ j = 1 := by omega
  · rw [halfComplex_low _ (by decide), dft_zero, Finset.sum_range_succ, Finset.sum_range_one]
    rfl
  · rw [halfComplex_low _ (by decide), dft, Finset.sum_range_succ, Finset.sum_range_one]
    simp [sub_eq_add_neg]

/-- **Transforms of two elements.** -/
theorem base_two (half : star w ^ 2 ^ p = -1) (size : b.length = 2 ^ (p + 1))
    (permuted : ∀ k < 2 ^ (p + 1), b.getD k 0 = a.getD (reversed (p + 1) k) 0) :
    ∃ c, onChunks 2 (onPair r2hcI2 0 1) b = (.ok c : Exec ε _) ∧ Merges a w p 1 c ∧
      ∀ s : E, onChunks 2 (onPair hc2rI2 0 1) (c.map (s * ·)) =
        (.ok (b.map (2 * s * ·)) : Exec ε _) := by
  obtain ⟨c, ran, sizeC, each⟩ := onChunks_returns (ε := ε) (onPair r2hcI2 0 1)
    (Replaced (ε := ε) (onPair hc2rI2 0 1) 2
      fun x => [x.getD 0 0 + x.getD 1 0, x.getD 0 0 - x.getD 1 0])
    (show 0 < 2 by decide) (fun x sizeX => by
      obtain ⟨x, y, rfl⟩ := List.length_eq_two.mp sizeX
      refine ⟨_, onPair_pair r2hcI2 x y, rfl, rfl, fun s => ?_⟩
      refine (onPair_pair hc2rI2 _ _).trans (congrArg Except.ok ?_)
      simp only [hc2rI2, r2hcI2, Matrix.cons_val_zero, Matrix.cons_val_one, List.map_cons,
        List.map_nil, List.cons.injEq, and_true]
      exact ⟨by ring, by ring⟩) (size.trans (pow_succ 2 p))
  refine ⟨c, ran, ⟨sizeC.trans (pow_succ 2 p).symm, fun Q inside j small => ?_⟩, fun s =>
    onChunks_undo (by decide) (size.trans (pow_succ 2 p)) sizeC 2 s
      fun Q inside => (each Q inside).undone s⟩
  have cell := getD_chunk c Q small
  rw [pow_one] at cell small ⊢
  have known : ∀ j < 2, (chunk 2 b Q).getD j 0 = partOf a p Q j := by
    intro j small
    have here := getD_permuted permuted inside (j := j) small
    have same : ∀ j < 2, reversed 1 j = j := by decide
    rwa [pow_one, same j small, ← getD_chunk b Q small] at here
  rw [← cell, (each Q inside).made, known 0 (by decide), known 1 (by decide), half]
  exact halfComplex_two (partOf a p Q) small

/-- **Transforms of four elements.** -/
theorem base_four (quarter : w ^ 2 ^ p = Gaussian.i) (size : b.length = 2 ^ (p + 2))
    (permuted : ∀ k < 2 ^ (p + 2), b.getD k 0 = a.getD (reversed (p + 2) k) 0) :
    ∃ c, onChunks 4 (onColumn r2hcI4 0 1) b = (.ok c : Exec ε _) ∧ Merges a w p 2 c ∧
      ∀ s : E, onChunks 4 (onColumn hc2rI4 0 1) (c.map (s * ·)) =
        (.ok (b.map (4 * s * ·)) : Exec ε _) := by
  have four : 2 ^ (p + 2) = 2 ^ p * 4 := by ring
  obtain ⟨c, ran, sizeC, each⟩ := onChunks_returns (ε := ε) (onColumn r2hcI4 0 1)
    (Replaced (ε := ε) (onColumn hc2rI4 0 1) 4
      fun x => List.ofFn (r2hcI4 fun d : Fin 4 => x.getD d 0))
    (show 0 < 4 by decide) (fun l sizeL => by
      obtain ⟨x, y, z, u, rfl⟩ : ∃ x y z u, l = [x, y, z, u] := by
        match l, sizeL with
        | [x, y, z, u], _ => exact ⟨x, y, z, u, rfl⟩
      refine ⟨_, onColumn_four r2hcI4 x y z u, rfl, rfl, fun s => ?_⟩
      refine (onColumn_four hc2rI4 _ _ _ _).trans (congrArg Except.ok ?_)
      have back := hc2rI4_r2hcI4 s ![x, y, z, u]
      have values : (fun d => s * r2hcI4 ![x, y, z, u] d) = ![s * r2hcI4 ![x, y, z, u] 0,
          s * r2hcI4 ![x, y, z, u] 1, s * r2hcI4 ![x, y, z, u] 2, s * r2hcI4 ![x, y, z, u] 3] := by
        funext d
        fin_cases d <;> rfl
      rw [← values, back]
      rfl) (size.trans four)
  refine ⟨c, ran, ⟨sizeC.trans four.symm, fun Q inside j small => ?_⟩, fun s =>
    onChunks_undo (by decide) (size.trans four) sizeC 4 s
      fun Q inside => (each Q inside).undone s⟩
  have known : ∀ d : Fin 4, (chunk 4 b Q).getD d 0 = partOf a p Q (reversed 2 d) := by
    intro d
    rw [getD_chunk b Q d.2]
    exact getD_permuted permuted inside d.2
  have turn : (star w ^ 2 ^ p) ^ 1 = -Gaussian.i := by
    rw [pow_one]
    exact star_pow_quarter quarter
  have merged := r2hcI4_forward turn (partOf a p Q) Nat.one_pos
    (g := fun d => (chunk 4 b Q).getD d 0) (fun d => by
      rw [terms, Nat.zero_mul, pow_zero, one_mul, dft_zero, Finset.sum_range_one, Nat.mul_zero,
        Nat.zero_add, known]) ⟨j, small⟩
  rw [Nat.mul_one, Nat.mul_one] at merged
  have cell : (chunk 4 c Q).getD j 0 = c.getD (Q * 2 ^ 2 + j) 0 := getD_chunk c Q small
  rw [← cell, (each Q inside).made]
  exact (List.getD_eq_getElem _ _ (by rw [List.length_ofFn]; exact small)).trans
    ((List.getElem_ofFn _).trans merged)

/-! ### The transforms -/

theorem baseSize_returns {t : ℕ} (small : 2 ^ t ≤ 4) (some : 2 ≤ 2 ^ t) {r fuel : ℕ} (enough : r ≤ fuel) :
    baseSize fuel (2 ^ (t + 2 * r)) = 2 ^ t := by
  induction r generalizing fuel with
  | zero =>
    rw [Nat.mul_zero, Nat.add_zero]
    cases fuel with
    | zero => rfl
    | succ fuel => rw [baseSize, if_neg (by omega)]
  | succ r ih =>
    obtain ⟨fuel, rfl⟩ : ∃ k, fuel = k + 1 := ⟨fuel - 1, by omega⟩
    have four : 2 ^ (t + 2 * (r + 1)) = 2 ^ (t + 2 * r) * 4 := by ring
    have large : 2 ^ t ≤ 2 ^ (t + 2 * r) := Nat.pow_le_pow_right (by decide) (by omega)
    rw [baseSize, if_pos (by omega), four, Nat.mul_div_cancel _ (by decide), ih (by omega)]

section Prepare

variable [DecidableEq E] [NoZeroDivisors E] {omega : Fp2Element E}

omit [NoZeroDivisors E] in
theorem validateRoot_returns (circle : omega * star omega = 1) :
    validateRoot omega = (.ok () : Exec ε Unit) := by
  have conjugate : (⟨omega.re, -omega.im⟩ : Fp2Element E) = star omega := by
    ext
    · rw [QuadraticAlgebra.re_star, zero_mul, add_zero]
    · rw [QuadraticAlgebra.im_star]
  rw [validateRoot, ensure_of (by rw [mulFp2_eq, conjugate, circle])]

theorem prepare_returns (debug : Bool) (within : n + 2 ≤ order)
    (circle : omega * star omega = 1) (root : omega ^ 2 ^ (order - (n + 2)) = w)
    (quarter : w ^ 2 ^ n = Gaussian.i) :
    ∃ roots, prepare debug omega (2 ^ order) (2 ^ (n + 2)) = (.ok roots : Exec ε _) ∧
      ∀ k < 2 ^ (n + 1), getAt roots k = (.ok (w ^ k) : Exec ε _) := by
  have half : 2 ^ (n + 2) / 2 = 2 ^ (n + 1) := by
    rw [pow_succ]
    omega
  have table : ∀ k < 2 ^ (n + 1),
      getAt ((List.range (2 ^ (n + 2) / 2)).map (w ^ ·)) k = (.ok (w ^ k) : Exec ε _) := by
    intro k inside
    rw [getAt_of_lt (by simpa [half] using inside)]
    simp
  refine ⟨_, ?_, table⟩
  have fourth : 2 ^ (n + 2) / 4 = 2 ^ n := by
    rw [pow_add]
    omega
  have below : 2 ^ n < 2 ^ (n + 1) := Nat.pow_lt_pow_right (by decide) (by omega)
  have turned : validateI (w ^ 2 ^ n) = (.ok () : Exec ε Unit) := by
    rw [validateI, ensure_of quarter]
  have eighth : 8 ≤ 2 ^ (n + 2) → 2 ^ (n + 2) / 8 < 2 ^ (n + 1) ∧
      validateW8 (w ^ (2 ^ (n + 2) / 8)) = (.ok () : Exec ε Unit) := by
    intro large
    obtain ⟨k, rfl⟩ : ∃ k, n = k + 1 := by
      refine ⟨n - 1, (Nat.sub_add_cancel (Nat.pos_of_ne_zero fun zero => ?_)).symm⟩
      rw [zero] at large
      exact absurd large (by decide)
    have quotient : 2 ^ (k + 1 + 2) / 8 = 2 ^ k := by
      rw [pow_add, pow_add]
      omega
    have square : w ^ 2 ^ k * w ^ 2 ^ k = Gaussian.i := by
      rw [← pow_add, ← Nat.two_mul, ← pow_succ', quarter]
    have unit : w * star w = 1 := root ▸ circle_pow circle _
    have diagonal := diagonal_of_square (circle_pow unit (2 ^ k)) square
    rw [quotient, validateW8, ensure_of diagonal]
    exact ⟨Nat.pow_lt_pow_right (by decide) (by omega), rfl⟩
  rw [prepare, reroot_returns within, ok_bind, root, twiddleNew_returns, ok_bind]
  cases debug with
  | false => rfl
  | true =>
    rw [if_pos rfl, fourth, table _ below, ok_bind, turned, ok_bind]
    by_cases large : 8 ≤ 2 ^ (n + 2)
    · obtain ⟨inside, valid⟩ := eighth large
      rw [Bool.true_and, if_pos (decide_eq_true large), table _ inside, ok_bind, valid, ok_bind,
        pure_eq_ok]
    · rw [Bool.true_and, if_neg (by simpa using large), pure_eq_ok]

omit [DecidableEq E] [NoZeroDivisors E] in
theorem bitrev_undo {l : ℕ} (size : a.length = 2 ^ l) (sizeB : b.length = 2 ^ l)
    (permuted : ∀ k < 2 ^ l, b.getD k 0 = a.getD (reversed l k) 0) (q : E) :
    bitrev (b.map (q * ·)) = (.ok (a.map (q * ·)) : Exec ε _) := by
  obtain ⟨c, ran, sizeC, moved⟩ := bitrev_returns (ε := ε) (a := b.map (q * ·)) (l := l)
    (by rw [List.length_map, sizeB])
  have same : c = a.map (q * ·) := by
    refine eq_of_getD (by rw [sizeC, List.length_map, size]) fun k inside => ?_
    rw [sizeC] at inside
    rw [moved k inside, getD_map_mul, permuted _ (reversed_lt l k), reversed_reversed inside,
      getD_map_mul]
  rw [ran, same]

omit [DecidableEq E] [NoZeroDivisors E] in
/-- **The first transforms**, of two or four elements each. -/
theorem base_returns (quarter : w ^ 2 ^ n = Gaussian.i) (size : b.length = 2 ^ (n + 2))
    (permuted : ∀ k < 2 ^ (n + 2), b.getD k 0 = a.getD (reversed (n + 2) k) 0) :
    ∃ t r c, n + 2 = 2 * r + (t + 1) ∧ t ≤ 1 ∧
      (if 2 ^ (t + 1) = 2 then onChunks 2 (onPair r2hcI2 0 1) b
        else onChunks 4 (onColumn r2hcI4 0 1) b) = (.ok c : Exec ε _) ∧
      Merges a w (2 * r) (t + 1) c ∧
      ∀ s : E, (if 2 ^ (t + 1) = 2 then onChunks 2 (onPair hc2rI2 0 1) (c.map (s * ·))
        else onChunks 4 (onColumn hc2rI4 0 1) (c.map (s * ·))) =
          (.ok (b.map (2 ^ (t + 1) * s * ·)) : Exec ε _) := by
  obtain ⟨r, even | odd⟩ := Nat.even_or_odd' n
  · subst even
    obtain ⟨c, ran, merges, undone⟩ := base_four (ε := ε) quarter size permuted
    have four : (2 : E) ^ 2 = 4 := by norm_num
    refine ⟨1, r, c, by omega, le_rfl, ran, merges, fun s => ?_⟩
    rw [four]
    exact undone s
  · subst odd
    have half : star w ^ 2 ^ (2 * r + 1 + 1) = -1 := by
      rw [pow_succ 2 (2 * r + 1), pow_mul, star_pow_quarter quarter, neg_sq, pow_two, i_mul_i]
    obtain ⟨c, ran, merges, undone⟩ := base_two (ε := ε) half size permuted
    refine ⟨0, r + 1, c, by omega, Nat.zero_le _, ran, merges, fun s => ?_⟩
    rw [Nat.zero_add, pow_one, pow_one, if_pos rfl, undone]

omit [DecidableEq E] [NoZeroDivisors E] in
theorem backwardLevels_done {roots : List (Fp2Element E)} {m : ℕ} (small : m ≤ 4) (fuel n : ℕ)
    (c : List E) : backwardLevels roots n fuel m c = (.ok (m, c) : Exec ε _) := by
  cases fuel <;> rw [backwardLevels, if_neg (by omega), pure_eq_ok]

omit [CommRing E] [DecidableEq E] [NoZeroDivisors E] in
theorem ite_bind_ok {α β : Type} {P : Prop} [Decidable P] {x y : Exec ε α} {v : α}
    (ran : (if P then x else y) = .ok v) (next : α → Exec ε β) :
    (if P then x >>= next else y >>= next) = next v := by
  split at ran
  · rw [if_pos ‹P›, ran, ok_bind]
  · rw [if_neg ‹¬P›, ran, ok_bind]

/-- **The transforms** of four elements and more. -/
theorem r2hc_large (debug : Bool) (two : (2 : E) ≠ 0) (within : n + 2 ≤ order)
    (circle : omega * star omega = 1) (root : omega ^ 2 ^ (order - (n + 2)) = w)
    (quarter : w ^ 2 ^ n = Gaussian.i) (size : a.length = 2 ^ (n + 2)) :
    ∃ c, r2hc debug omega (2 ^ order) a = (.ok c : Exec ε _) ∧ Merges a w 0 (n + 2) c ∧
      ∀ s : E, hc2r debug omega (2 ^ order) (c.map (s * ·)) =
        (.ok (a.map (2 ^ (n + 2) * s * ·)) : Exec ε _) := by
  obtain ⟨roots, prepared, table⟩ := prepare_returns (ε := ε) debug within circle root quarter
  obtain ⟨b, moved, sizeB, permuted⟩ := bitrev_returns (ε := ε) size
  obtain ⟨t, r, c₀, levels, small, first, merges, firstBack⟩ :=
    base_returns (ε := ε) quarter sizeB permuted
  have unit : w * star w = 1 := root ▸ circle_pow circle _
  obtain ⟨c, forwards, merged, backwards⟩ := Merges.run (ε := ε) unit two quarter table levels merges
  have fuel : 2 ^ (n + 2) = 2 ^ (n + 2) - r + r :=
    (Nat.sub_add_cancel ((show r ≤ n + 2 by omega).trans Nat.lt_two_pow_self.le)).symm
  have four : 2 ^ (n + 2) = 4 * 2 ^ n := by ring
  have positive := Nat.two_pow_pos n
  have other : ¬2 ^ (n + 2) = 2 := by omega
  have large : 4 ≤ 2 ^ (n + 2) := by omega
  have small' : 2 ^ (t + 1) ≤ 4 := Nat.pow_le_pow_right (n := 2) (by decide) (show t + 1 ≤ 2 by omega)
  have some : 2 ^ 1 ≤ 2 ^ (t + 1) := Nat.pow_le_pow_right (by decide) (by omega)
  have base : baseSize (2 ^ (n + 2)) (2 ^ (n + 2)) = 2 ^ (t + 1) := by
    have exponent : n + 2 = t + 1 + 2 * r := by omega
    have enough : r ≤ 2 ^ (t + 1 + 2 * r) :=
      (show r ≤ t + 1 + 2 * r by omega).trans Nat.lt_two_pow_self.le
    rw [exponent, baseSize_returns small' some enough]
  have start : (if 2 ^ (t + 1) = 2 then 2 else 4) = 2 ^ (t + 1) := by
    obtain rfl | rfl : t = 0 ∨ t = 1 := by omega
    · rfl
    · rfl
  have validated : (if debug = true then validateRoot omega else pure ()) =
      (.ok () : Exec ε Unit) := by
    cases debug
    · rfl
    · exact validateRoot_returns circle
  refine ⟨c, ?_, merged, fun s => ?_⟩
  · rw [r2hc, size, assertValidOrders_returns within, ok_bind]
    refine (ite_bind_ok validated _).trans ?_
    rw [if_neg other, if_pos large, prepared, ok_bind, moved, ok_bind, base]
    refine (ite_bind_ok first _).trans ?_
    have run := forwards (2 ^ (n + 2) - r)
    rw [← fuel] at run
    rw [start]
    exact run
  · have back := backwards s (2 ^ (n + 2) - r)
    rw [← fuel, backwardLevels_done small'] at back
    rw [hc2r, List.length_map, merged.size, Nat.zero_add, assertValidOrders_returns within, ok_bind]
    refine (ite_bind_ok validated _).trans ?_
    rw [if_neg other, if_pos large, prepared, ok_bind, back, ok_bind]
    refine (ite_bind_ok (firstBack _) _).trans ?_
    have total : (2 : E) ^ (t + 1) * 4 ^ r = 2 ^ (n + 2) := by
      have four : (4 : E) = 2 ^ 2 := by norm_num
      rw [four, ← pow_mul, ← pow_add, levels]
      congr 1
      omega
    simp only [← mul_assoc, total]
    exact bitrev_undo size sizeB permuted _

/-! ### All sizes -/

omit [DecidableEq E] [NoZeroDivisors E] in
theorem eq_halfComplexForm {F : ℕ → Gaussian E} (size : b.length = n)
    (values : ∀ j < n, b.getD j 0 = halfComplex n F j) : b = halfComplexForm n F := by
  refine eq_of_getD (by rw [size, length_halfComplexForm]) fun k inside => ?_
  rw [size] at inside
  rw [values k inside, getD_halfComplexForm F inside]

omit [DecidableEq E] [NoZeroDivisors E] in
theorem Merges.done {l : ℕ} (merges : Merges a w 0 l b) :
    b = halfComplexForm (2 ^ l) (dft (2 ^ l) (star w) fun k => a.getD k 0) := by
  refine eq_halfComplexForm (by rw [merges.size, Nat.zero_add]) fun j inside => ?_
  have value := merges.values 0 (by decide) j inside
  have part : partOf a 0 0 = fun k => a.getD k 0 := by
    funext k
    rw [partOf, pow_zero, Nat.mul_one, reversed_zero, Nat.add_zero]
  rwa [Nat.zero_mul, Nat.zero_add, pow_zero, pow_one, part] at value

variable {l : ℕ}

/-- **The transform and the transform back**, of every size. The root of order two has to be minus
one, and the root of order four has to be the square root of minus one that the kernels use. -/
theorem r2hc_returns (debug : Bool) (two : (2 : E) ≠ 0) (within : l ≤ order)
    (circle : omega * star omega = 1) (half : l = 1 → omega ^ 2 ^ (order - 1) = -1)
    (quarter : 2 ≤ l → omega ^ 2 ^ (order - 2) = Gaussian.i) (size : a.length = 2 ^ l) :
    ∃ c, r2hc debug omega (2 ^ order) a = (.ok c : Exec ε _) ∧
      c = halfComplexForm (2 ^ l)
        (dft (2 ^ l) (star (omega ^ 2 ^ (order - l))) fun k => a.getD k 0) ∧
      ∀ s : E, hc2r debug omega (2 ^ order) (c.map (s * ·)) =
        (.ok (a.map (2 ^ l * s * ·)) : Exec ε _) := by
  have validated : (if debug = true then validateRoot omega else pure ()) =
      (.ok () : Exec ε Unit) := by
    cases debug
    · rfl
    · exact validateRoot_returns circle
  match l with
  | 0 =>
    obtain ⟨x, rfl⟩ := List.length_eq_one_iff.mp size
    refine ⟨[x], ?_, ?_, fun s => ?_⟩
    · rw [r2hc, List.length_singleton, ← pow_zero 2, assertValidOrders_returns within, ok_bind]
      exact ite_bind_ok validated _
    · refine eq_halfComplexForm rfl fun j inside => ?_
      obtain rfl : j = 0 := by omega
      rw [halfComplex_low _ (by decide), dft_zero, pow_zero, Finset.sum_range_one]
      rfl
    · rw [hc2r, List.length_map]
      refine (congrArg (· >>= _) (assertValidOrders_returns within)).trans ?_
      dsimp only
      rw [ok_bind]
      refine (ite_bind_ok validated _).trans (congrArg Except.ok ?_)
      rw [pow_zero, List.map_singleton, List.map_singleton, one_mul]
  | 1 =>
    obtain ⟨x, y, rfl⟩ := List.length_eq_two.mp size
    have root : star (omega ^ 2 ^ (order - 1)) = -1 := by rw [half rfl, star_neg, star_one]
    refine ⟨[x + y, x - y], ?_, ?_, fun s => ?_⟩
    · rw [r2hc, size, assertValidOrders_returns within, ok_bind]
      exact (ite_bind_ok validated _).trans (onPair_pair r2hcI2 x y)
    · rw [root]
      exact eq_halfComplexForm rfl fun j inside =>
        halfComplex_two (fun k => [x, y].getD k 0) inside
    · rw [hc2r, List.length_map]
      refine (congrArg (· >>= _) (assertValidOrders_returns within)).trans ?_
      refine (ite_bind_ok validated _).trans ?_
      refine (onPair_pair hc2rI2 _ _).trans (congrArg Except.ok ?_)
      simp only [hc2rI2, Matrix.cons_val_zero, Matrix.cons_val_one, List.map_cons, List.map_nil,
        List.cons.injEq, and_true, pow_one]
      exact ⟨by ring, by ring⟩
  | n + 2 =>
    have fourth : (omega ^ 2 ^ (order - (n + 2))) ^ 2 ^ n = Gaussian.i := by
      have exponent : order - (n + 2) + n = order - 2 := by omega
      rw [← pow_mul, ← pow_add, exponent, quarter (by omega)]
    obtain ⟨c, ran, merges, undone⟩ :=
      r2hc_large (ε := ε) debug two within circle rfl fourth size
    exact ⟨c, ran, merges.done, undone⟩

end Prepare

/-! ### The product of two transforms -/

/-- The cells of two. -/
local instance two_neZero : NeZero 2 := inferInstance

/-- Multiply two transforms. -/
def multiplySpectra (out kernel : List E) : Exec ε (List E) := do
  let first ← getAt kernel 0
  let out ← onCells (List.finRange 1) (fun _ => 0) (fun x _ => x 0 * first) out
  let half := out.length / 2
  let middle ← getAt kernel half
  let out ← onCells (List.finRange 1) (fun _ => half) (fun x _ => x 0 * middle) out
  (List.range' 1 (half - 1)).foldlM (fun out j => do
    let re ← getAt kernel j
    let im ← getAt kernel (2 * half - j)
    onPair (fun x => ![(cmul (x 0) (x 1) re im).1, (cmul (x 0) (x 1) re im).2]) j
      (2 * half - j - j) out) out

theorem onCell_returns {a : List E} {k : ℕ} (inside : k < a.length) (f : E → E) :
    ∃ b, onCells (List.finRange 1) (fun _ => k) (fun x _ => f (x 0)) a = (.ok b : Exec ε _) ∧
      b.length = a.length ∧ b.getD k 0 = f (a.getD k 0) ∧
      ∀ j, j ≠ k → b.getD j 0 = a.getD j 0 := by
  obtain ⟨b, ran, size, changed, others⟩ := onCells_returns (ε := ε) (a := a) (List.finRange 1)
    (fun _ => k) List.mem_finRange (fun _ => inside) (fun _ _ _ => Subsingleton.elim _ _)
    fun x _ => f (x 0)
  exact ⟨b, ran, size, changed 0, fun j other => others j fun _ same => other same.symm⟩

theorem getAt_halfComplexForm (F : ℕ → Gaussian E) (inside : j < n) :
    getAt (halfComplexForm n F) j = (.ok (halfComplex n F j) : Exec ε E) := by
  rw [getAt_of_lt (by rwa [length_halfComplexForm])]
  simp [halfComplexForm]

/-- **The product of two transforms**: the first value and the middle one are real. -/
theorem multiplySpectra_returns {h : ℕ} (some : 0 < h) {F G : ℕ → Gaussian E} (realF : (F 0).im = 0)
    (realG : (G 0).im = 0) (middleF : (F h).im = 0) (middleG : (G h).im = 0) :
    multiplySpectra (halfComplexForm (2 * h) F) (halfComplexForm (2 * h) G) =
      (.ok (halfComplexForm (2 * h) fun j => F j * G j) : Exec ε _) := by
  have real : ∀ j, (F j).im = 0 → (G j).im = 0 → (F j * G j).re = (F j).re * (G j).re := by
    intro j imF imG
    rw [QuadraticAlgebra.re_mul, imF, imG]
    ring
  have value := fun j (inside : j < 2 * h) => getD_halfComplexForm F inside
  obtain ⟨x, ran₁, size₁, first, others₁⟩ := onCell_returns (ε := ε)
    (a := halfComplexForm (2 * h) F) (k := 0) (by rw [length_halfComplexForm]; omega)
    (· * halfComplex (2 * h) G 0)
  rw [length_halfComplexForm] at size₁
  obtain ⟨y, ran₂, size₂, middle, others₂⟩ := onCell_returns (ε := ε) (a := x) (k := h)
    (by omega) (· * halfComplex (2 * h) G h)
  have quotient : x.length / 2 = h := by omega
  obtain ⟨z, ran₃, size₃, done⟩ := foldlM_range'_returns (ε := ε) (k := 1) (n := h - 1)
    (f := fun out j => do
      let re ← getAt (halfComplexForm (2 * h) G) j
      let im ← getAt (halfComplexForm (2 * h) G) (2 * h - j)
      onPair (fun x => ![(cmul (x 0) (x 1) re im).1, (cmul (x 0) (x 1) re im).2]) j
        (2 * h - j - j) out)
    (fun j b => b.length = 2 * h ∧ ∀ k < 2 * h, b.getD k 0 =
      if k < j ∨ 2 * h - k < j ∨ k = h then halfComplex (2 * h) (fun j => F j * G j) k
      else halfComplex (2 * h) F k)
    (s := y) ⟨size₂.trans size₁, fun k inside => by
      by_cases zero : k = 0
      · rw [if_pos (by omega), zero, others₂ 0 (by omega), first, value 0 (by omega),
          halfComplex_low _ (by omega), halfComplex_low _ (by omega), halfComplex_low _ (by omega),
          real 0 realF realG]
      · by_cases half : k = h
        · rw [if_pos (by omega), half, middle, others₁ h (by omega), value h (by omega),
            halfComplex_low _ (by omega), halfComplex_low _ (by omega),
            halfComplex_low _ (by omega), real h middleF middleG]
        · rw [if_neg (by omega), others₂ k half, others₁ k zero, value k inside]⟩ (by
      rintro j b from₁ to₁ ⟨sizeB, done⟩
      have opposite : 2 * h - j + j = 2 * h := by omega
      have other : j + (2 * h - j) = 2 * h := by omega
      obtain ⟨c, ran, sizeC, left, right, others⟩ := onPair_returns (ε := ε) (a := b)
        (fun x => ![(cmul (x 0) (x 1) (G j).re (G j).im).1, (cmul (x 0) (x 1) (G j).re (G j).im).2])
        (i := j) (s := 2 * h - j - j) (by omega) (by omega)
      have index : j + (2 * h - j - j) = 2 * h - j := by omega
      rw [index, done j (by omega), if_neg (by omega), done (2 * h - j) (by omega),
        if_neg (by omega), halfComplex_low F (j := j) (by omega),
        halfComplex_high F (j := 2 * h - j) (by omega) other] at left right
      rw [index] at others
      have product := cmul_eq (F j) (G j)
      rw [getAt_halfComplexForm G (by omega), ok_bind, getAt_halfComplexForm G (by omega), ok_bind,
        halfComplex_low G (j := j) (by omega), halfComplex_high G (j := 2 * h - j) (by omega) other]
      refine ⟨c, ran, sizeC.trans sizeB, fun k inside => ?_⟩
      by_cases isLeft : k = j
      · rw [isLeft, left, if_pos (by omega), halfComplex_low _ (by omega)]
        exact congrArg Prod.fst product
      · by_cases isRight : k = 2 * h - j
        · rw [isRight, right, if_pos (by omega), halfComplex_high _ (by omega) other]
          exact congrArg Prod.snd product
        · rw [others k isLeft isRight, done k inside]
          exact if_congr (by omega) rfl rfl)
  have last : z = halfComplexForm (2 * h) fun j => F j * G j :=
    eq_halfComplexForm size₃ fun k inside => by rw [done k inside, if_pos (by omega)]
  rw [multiplySpectra, getAt_halfComplexForm G (by omega), ok_bind, ran₁, ok_bind, quotient]
  dsimp only
  rw [getAt_halfComplexForm G (by omega), ok_bind, ran₂, ok_bind, ran₃, last]

/-! ### Over a field -/

/-- The transform of a vector, as it is stored. -/
def realTransform (n : ℕ) (v : Gaussian E) (a : List E) : List E :=
  halfComplexForm n (dft n v fun k => a.getD k 0)

/-- The product of the transforms of two vectors, as it is stored. -/
def productTransform (n : ℕ) (v : Gaussian E) (a b : List E) : List E :=
  halfComplexForm n fun j => dft n v (fun k => a.getD k 0) j * dft n v (fun k => b.getD k 0) j

/-- The cyclic convolution of two vectors. -/
def convolution (n : ℕ) (a b : List E) : List E :=
  (List.range n).map (cyclic n (fun k => a.getD k 0) fun k => b.getD k 0)

theorem realTransform_convolution {v : Gaussian E} (root : v ^ n = 1) (a b : List E) :
    realTransform n v (convolution n a b) = productTransform n v a b := by
  refine congrArg (halfComplexForm n) (funext fun j => ?_)
  rw [← dft_cyclic root]
  refine dft_congr fun k inside => ?_
  rw [List.getD_eq_getElem _ _ (by simpa [convolution] using inside)]
  simp [convolution]

section Field

variable {K : Type} [Field K] (nonsquare : ∀ r : K, r * r ≠ -1)

include nonsquare in
theorem two_ne_zero_of_nonsquare : (2 : K) ≠ 0 := by
  intro two
  refine nonsquare 1 ?_
  linear_combination two

include nonsquare in
theorem noZeroDivisors_gaussian : NoZeroDivisors (Gaussian K) := by
  have irreducible : Fact (∀ r : K, r ^ 2 ≠ -1 + 0 * r) :=
    ⟨fun r => by rw [zero_mul, add_zero, pow_two]; exact nonsquare r⟩
  infer_instance

include nonsquare in
theorem half_of_primitive {omega : Fp2Element K} (some : 1 ≤ order)
    (primitive : orderOf omega = 2 ^ order) : omega ^ 2 ^ (order - 1) = -1 := by
  have domain := noZeroDivisors_gaussian nonsquare
  have below : 2 ^ (order - 1) < 2 ^ order := Nat.pow_lt_pow_right (by decide) (by omega)
  have exponent : 2 ^ (order - 1) * 2 = 2 ^ order := by rw [← pow_succ, Nat.sub_add_cancel some]
  have square : (omega ^ 2 ^ (order - 1)) ^ 2 = 1 := by
    rw [← pow_mul, exponent, ← primitive, pow_orderOf_eq_one]
  have other : omega ^ 2 ^ (order - 1) ≠ 1 :=
    pow_ne_one_of_lt_orderOf (Nat.two_pow_pos _).ne' (primitive ▸ below)
  have zeros : (omega ^ 2 ^ (order - 1) - 1) * (omega ^ 2 ^ (order - 1) + 1) = 0 := by
    linear_combination square
  exact eq_neg_of_add_eq_zero_left ((mul_eq_zero.mp zeros).resolve_left (sub_ne_zero.mpr other))

end Field

end Rfft

open Rfft in
/-- **The real Fourier transform.** For a primitive root on the unit circle, whose power of order four
is the square root of minus one that the kernels use, the transform is the half-complex form of the
Fourier transform, the transform back multiplies by the length, and the product of two transforms is
transformed back to the cyclic convolution. -/
theorem rfft_exact {ε K : Type} [Field K] [DecidableEq K] (nonsquare : ∀ r : K, r * r ≠ -1)
    (debug : Bool) {omega : Fp2Element K} {l order : ℕ} (primitive : orderOf omega = 2 ^ order)
    (circle : omega * star omega = 1) (within : 2 ^ l ≤ 2 ^ order)
    (sign : 4 ≤ 2 ^ l → omega ^ (2 ^ order / 4) = Gaussian.i) {a b : List K}
    (sizeA : a.length = 2 ^ l) (sizeB : b.length = 2 ^ l) :
    let v := star (omega ^ (2 ^ order / 2 ^ l))
    r2hc debug omega (2 ^ order) a = (.ok (realTransform (2 ^ l) v a) : Exec ε _) ∧
    hc2r debug omega (2 ^ order) (realTransform (2 ^ l) v a) =
      (.ok (a.map (2 ^ l * ·)) : Exec ε _) ∧
    (2 ≤ 2 ^ l → multiplySpectra (realTransform (2 ^ l) v a) (realTransform (2 ^ l) v b) =
      (.ok (productTransform (2 ^ l) v a b) : Exec ε _)) ∧
    hc2r debug omega (2 ^ order) (productTransform (2 ^ l) v a b) =
      (.ok ((convolution (2 ^ l) a b).map (2 ^ l * ·)) : Exec ε _) := by
  have two := two_ne_zero_of_nonsquare nonsquare
  have below : l ≤ order := (Nat.pow_le_pow_iff_right (by decide)).mp within
  have quotient : 2 ^ order / 2 ^ l = 2 ^ (order - l) := Nat.pow_div below (by decide)
  have quarter : 2 ≤ l → omega ^ 2 ^ (order - 2) = Gaussian.i := by
    intro large
    have fourth : 2 ^ order / 4 = 2 ^ (order - 2) := Nat.pow_div (large.trans below) (by decide)
    rw [← fourth]
    exact sign (Nat.pow_le_pow_right (n := 2) (by decide) large)
  have half : l = 1 → omega ^ 2 ^ (order - 1) = -1 := fun one =>
    half_of_primitive nonsquare (one ▸ below) primitive
  have run : ∀ x : List K, x.length = 2 ^ l →
      r2hc debug omega (2 ^ order) x =
        (.ok (realTransform (2 ^ l) (star (omega ^ 2 ^ (order - l))) x) : Exec ε _) ∧
      hc2r debug omega (2 ^ order) (realTransform (2 ^ l) (star (omega ^ 2 ^ (order - l))) x) =
        (.ok (x.map (2 ^ l * ·)) : Exec ε _) := by
    intro x size
    obtain ⟨c, ran, form, undone⟩ :=
      r2hc_returns (ε := ε) debug two below circle half quarter size
    have back := undone 1
    simp only [one_mul, mul_one, List.map_id'] at back
    subst form
    exact ⟨ran, back⟩
  have root : star (omega ^ 2 ^ (order - l)) ^ 2 ^ l = 1 := by
    have exponent : 2 ^ (order - l) * 2 ^ l = orderOf omega := by
      rw [← pow_add, Nat.sub_add_cancel below, primitive]
    rw [← star_pow, ← pow_mul, exponent, pow_orderOf_eq_one, star_one]
  have unit : star (omega ^ 2 ^ (order - l)) * star (star (omega ^ 2 ^ (order - l))) = 1 := by
    rw [star_star, mul_comm]
    exact circle_pow circle _
  dsimp only
  rw [quotient]
  refine ⟨(run a sizeA).1, (run a sizeA).2, fun some => ?_, ?_⟩
  · obtain ⟨k, rfl⟩ : ∃ k, l = k + 1 := by
      refine ⟨l - 1, (Nat.sub_add_cancel (Nat.pos_of_ne_zero fun zero => ?_)).symm⟩
      rw [zero] at some
      exact absurd some (by decide)
    have double : 2 ^ (k + 1) = 2 * 2 ^ k := pow_succ' 2 k
    have first : ∀ x : ℕ → K, (dft (2 ^ (k + 1)) (star (omega ^ 2 ^ (order - (k + 1)))) x 0).im = 0 :=
      fun x => by rw [dft_zero, im_ofReal]
    have middle := im_dft_half root unit two (j := 2 ^ k)
    rw [realTransform, realTransform, productTransform]
    rw [double] at first middle ⊢
    exact multiplySpectra_returns (Nat.two_pow_pos k) (first _) (first _) (middle _ rfl)
      (middle _ rfl)
  · rw [← realTransform_convolution root]
    exact (run _ (by simp [convolution])).2

open Rfft in
/-- A primitive root of order eight of the extension of GF(7). -/
theorem rfft_exact_gf7 : let v := star ((⟨2, 2⟩ : Fp2Element (ZMod 7)) ^ (2 ^ 3 / 2 ^ 3))
    r2hc true ⟨2, 2⟩ (2 ^ 3) [1, 2, 3, 4, 5, 6, 0, 1] =
      (.ok (realTransform (2 ^ 3) v [1, 2, 3, 4, 5, 6, 0, 1]) : Exec Unit _) ∧
    hc2r true ⟨2, 2⟩ (2 ^ 3) (realTransform (2 ^ 3) v [1, 2, 3, 4, 5, 6, 0, 1]) =
      (.ok ([1, 2, 3, 4, 5, 6, 0, 1].map (2 ^ 3 * ·)) : Exec Unit _) ∧
    (2 ≤ 2 ^ 3 → multiplySpectra (realTransform (2 ^ 3) v [1, 2, 3, 4, 5, 6, 0, 1])
        (realTransform (2 ^ 3) v [3, 0, 1, 0, 0, 0, 0, 2]) =
      (.ok (productTransform (2 ^ 3) v [1, 2, 3, 4, 5, 6, 0, 1] [3, 0, 1, 0, 0, 0, 0, 2]) :
        Exec Unit _)) ∧
    hc2r true ⟨2, 2⟩ (2 ^ 3)
        (productTransform (2 ^ 3) v [1, 2, 3, 4, 5, 6, 0, 1] [3, 0, 1, 0, 0, 0, 0, 2]) =
      (.ok ((convolution (2 ^ 3) [1, 2, 3, 4, 5, 6, 0, 1] [3, 0, 1, 0, 0, 0, 0, 2]).map
        (2 ^ 3 * ·)) : Exec Unit _) := by
  have nonsquare : ∀ r : ZMod 7, r * r ≠ -1 := by decide
  have primitive : orderOf (⟨2, 2⟩ : Fp2Element (ZMod 7)) = 2 ^ 3 :=
    orderOf_eq_prime_pow (by decide) (by decide)
  have circle : (⟨2, 2⟩ : Fp2Element (ZMod 7)) * star ⟨2, 2⟩ = 1 := by decide
  have sign : (⟨2, 2⟩ : Fp2Element (ZMod 7)) ^ (2 ^ 3 / 4) = Gaussian.i := by decide
  have prime : Fact (Nat.Prime 7) := ⟨by norm_num⟩
  exact rfft_exact (l := 3) nonsquare true primitive circle le_rfl (fun _ => sign) rfl rfl

open Rfft in
/-- The other root of order four: the transform is not the Fourier transform, and with the assertions it
does not return. -/
theorem r2hc_conjugate_root :
    (∀ r : ZMod 7, r * r ≠ -1) ∧ orderOf (⟨0, -1⟩ : Fp2Element (ZMod 7)) = 2 ^ 2 ∧
    (⟨0, -1⟩ : Fp2Element (ZMod 7)) * star ⟨0, -1⟩ = 1 ∧
    r2hc false (⟨0, -1⟩ : Fp2Element (ZMod 7)) (2 ^ 2) [0, 1, 0, 0] ≠
      (.ok (realTransform (2 ^ 2) (star (⟨0, -1⟩ ^ (2 ^ 2 / 2 ^ 2))) [0, 1, 0, 0]) : Exec Unit _) ∧
    r2hc true (⟨0, -1⟩ : Fp2Element (ZMod 7)) (2 ^ 2) [0, 1, 0, 0] =
      (abort "wrong sign for i(), need the conjugate root" : Exec Unit _) :=
  ⟨by decide, orderOf_eq_prime_pow (by decide) (by decide), by decide, by decide, rfl⟩

end Longfellow
