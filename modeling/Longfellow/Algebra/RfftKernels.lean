/-
**The kernels of the real Fourier transform** (`runtime/algebra/src/rfft.rs`).

* `merged_forward` — **a level forward merges four transforms** in half-complex form.
-/

import Longfellow.Algebra.Rfft

namespace Longfellow.Rfft

open Lib Gaussian

variable {E : Type} [CommRing E] {w : Fp2Element E} {j : ℕ}

/-! ### Backward after forward -/

theorem hc2rI4_r2hcI4 (s : E) (x : Fin 4 → E) :
    (hc2rI4 fun d => s * r2hcI4 x d) = fun d => 4 * s * x d := by
  funext d
  fin_cases d <;> simp [hc2rI4, r2hcI4] <;> ring

theorem hc2rIii4_r2hcIi4 {w8 : Fp2Element E} (diagonal : w8.re = w8.im)
    (circle : w8.re * w8.re + w8.im * w8.im = 1) (s : E) (x : Fin 4 → E) :
    (hc2rIii4 w8 fun d => s * r2hcIi4 w8 x d) = fun d => 4 * s * x d := by
  rw [← diagonal] at circle
  funext d
  fin_cases d <;> simp [hc2rIii4, r2hcIi4, ← diagonal]
  · ring
  · ring
  · linear_combination 4 * s * x 2 * circle
  · linear_combination 4 * s * x 3 * circle

theorem cmul_cmulConj (circle : w.re * w.re + w.im * w.im = 1) (s xr xi : E) :
    cmul (s * (cmulConj xr xi w.re w.im).1) (s * (cmulConj xr xi w.re w.im).2) w.re w.im =
      (s * xr, s * xi) := by
  refine Prod.ext ?_ ?_
  · simp only [cmul, cmulConj]
    linear_combination s * xr * circle
  · simp only [cmul, cmulConj]
    linear_combination s * xi * circle

theorem hc2hcB4_hc2hcF4 {tw1 tw2 tw3 : Fp2Element E} (circle1 : tw1.re * tw1.re + tw1.im * tw1.im = 1)
    (circle2 : tw2.re * tw2.re + tw2.im * tw2.im = 1)
    (circle3 : tw3.re * tw3.re + tw3.im * tw3.im = 1) (s : E) (xr xi : Fin 4 → E) :
    hc2hcB4 tw1 tw2 tw3 (fun d => s * (hc2hcF4 tw1 tw2 tw3 xr xi).1 d)
        (fun d => s * (hc2hcF4 tw1 tw2 tw3 xr xi).2 d) =
      (fun d => 4 * s * xr d, fun d => 4 * s * xi d) := by
  obtain ⟨re1, im1⟩ := Prod.ext_iff.mp (cmul_cmulConj circle2 (4 * s) (xr 1) (xi 1))
  obtain ⟨re2, im2⟩ := Prod.ext_iff.mp (cmul_cmulConj circle1 (4 * s) (xr 2) (xi 2))
  obtain ⟨re3, im3⟩ := Prod.ext_iff.mp (cmul_cmulConj circle3 (4 * s) (xr 3) (xi 3))
  simp only [hc2hcF4]
  generalize cmulConj (xr 1) (xi 1) tw2.re tw2.im = y1 at *
  generalize cmulConj (xr 2) (xi 2) tw1.re tw1.im = y2 at *
  generalize cmulConj (xr 3) (xi 3) tw3.re tw3.im = y3 at *
  simp only [cmul] at re1 im1 re2 im2 re3 im3
  refine Prod.ext (funext fun d => ?_) (funext fun d => ?_)
  · fin_cases d <;> simp [hc2hcB4, cmul]
    · ring
    · linear_combination re1
    · linear_combination re2
    · linear_combination re3
  · fin_cases d <;> simp [hc2hcB4, cmul]
    · ring
    · linear_combination im1
    · linear_combination im2
    · linear_combination im3

theorem norm_of_circle (circle : w * star w = 1) :
    w.re * w.re + w.im * w.im = 1 := by
  have real := congrArg QuadraticAlgebra.re circle
  rw [QuadraticAlgebra.re_mul, QuadraticAlgebra.re_star, QuadraticAlgebra.im_star,
    QuadraticAlgebra.re_one] at real
  linear_combination real

theorem circle_pow (circle : w * star w = 1) (k : ℕ) :
    w ^ k * star (w ^ k) = 1 := by
  rw [star_pow, ← mul_pow, circle, one_pow]

theorem diagonal_of_square {w8 : Fp2Element E} [NoZeroDivisors E] (circle : w8 * star w8 = 1)
    (square : w8 * w8 = Gaussian.i) : w8.re = w8.im := by
  have norm := norm_of_circle circle
  have imaginary := congrArg QuadraticAlgebra.im square
  rw [QuadraticAlgebra.im_mul] at imaginary
  simp only [Gaussian.i] at imaginary
  have same : (w8.re - w8.im) * (w8.re - w8.im) = 0 := by linear_combination norm - imaginary
  exact sub_eq_zero.mp (mul_self_eq_zero.mp same)

theorem merged_congr (kernels : Kernels E) (w : Fp2Element E) {m : ℕ} {x y : ℕ → Fin 4 → E}
    (same : ∀ j < m, x j = y j) (inside : j < m) :
    merged kernels w m x j = merged kernels w m y j := by
  have here := same j inside
  have zero := same 0 (by omega)
  rw [merged, merged, zero]
  by_cases first : j = 0
  · rw [if_pos first, if_pos first]
  · rw [here, same (m - j) (by omega)]

section Backward

variable {h : ℕ} (circle : w * star w = 1)
  (diagonal : (w ^ h).re = (w ^ h).im)

include circle diagonal in
/-- **A level backward undoes a level forward**, up to a factor of four. -/
theorem merged_backward (s : E) (x : ℕ → Fin 4 → E) (inside : j < 2 * h) :
    merged backward w (2 * h) (fun j d => s * merged forward w (2 * h) x j d) j =
      fun d => 4 * s * x j d := by
  have norm := fun k => norm_of_circle (circle_pow circle k)
  rw [merged]
  by_cases first : j = 0
  · rw [if_pos first, first]
    exact hc2rI4_r2hcI4 s (x 0)
  · rw [if_neg first]
    by_cases low : 2 * j < 2 * h
    · have back : 2 * h - (2 * h - j) = j := by omega
      have left : merged forward w (2 * h) x j =
          (hc2hcF4 (w ^ j) (w ^ (2 * j)) (w ^ (3 * j)) (x j) (x (2 * h - j))).1 := by
        rw [merged, if_neg first, if_pos low]
        rfl
      have right : merged forward w (2 * h) x (2 * h - j) =
          (hc2hcF4 (w ^ j) (w ^ (2 * j)) (w ^ (3 * j)) (x j) (x (2 * h - j))).2 := by
        rw [merged, if_neg (by omega), if_neg (by omega), if_neg (by omega), back]
        rfl
      rw [if_pos low, left, right]
      exact congrArg Prod.fst (hc2hcB4_hc2hcF4 (norm _) (norm _) (norm _) s _ _)
    · rw [if_neg low]
      by_cases middle : 2 * j = 2 * h
      · obtain rfl : j = h := by omega
        rw [if_pos rfl, merged, if_neg first, if_neg (lt_irrefl _), if_pos rfl]
        exact hc2rIii4_r2hcIi4 diagonal (norm _) s (x j)
      · have left : merged forward w (2 * h) x (2 * h - j) =
            (hc2hcF4 (w ^ (2 * h - j)) (w ^ (2 * (2 * h - j))) (w ^ (3 * (2 * h - j)))
              (x (2 * h - j)) (x j)).1 := by
          have back : 2 * h - (2 * h - j) = j := by omega
          rw [merged, if_neg (by omega), if_pos (by omega), back]
          rfl
        have right : merged forward w (2 * h) x j =
            (hc2hcF4 (w ^ (2 * h - j)) (w ^ (2 * (2 * h - j))) (w ^ (3 * (2 * h - j)))
              (x (2 * h - j)) (x j)).2 := by
          rw [merged, if_neg first, if_neg low, if_neg middle]
          rfl
        rw [if_neg middle, left, right]
        exact congrArg Prod.snd (hc2hcB4_hc2hcF4 (norm _) (norm _) (norm _) s _ _)

end Backward

/-! ### Forward -/

section Forward

variable {m : ℕ} {v : Fp2Element E}

theorem root_of_turn (turn : v ^ m = -Gaussian.i) : v ^ (4 * m) = 1 := by
  have square := i_mul_i (E := E)
  rw [Nat.mul_comm, pow_mul, turn]
  linear_combination (Gaussian.i * Gaussian.i - 1) * square

theorem halfComplex_low {n : ℕ} (F : ℕ → Gaussian E) (low : 2 * j ≤ n) :
    halfComplex n F j = (F j).re := if_pos low

theorem halfComplex_high {n k : ℕ} (F : ℕ → Gaussian E) (high : n < 2 * j) (opposite : k + j = n) :
    halfComplex n F j = (F k).im := by
  have same : n - j = k := by omega
  rw [halfComplex, if_neg (by omega), same]

variable (turn : v ^ m = -Gaussian.i) (x : ℕ → E)

include turn in
theorem r2hcI4_forward (some : 0 < m) {g : Fin 4 → E}
    (parts : ∀ d : Fin 4, terms m v x 0 (reversed 2 d) = ofReal (g d)) (d : Fin 4) :
    r2hcI4 g d = halfComplex (4 * m) (dft (4 * m) v x) (d * m) := by
  obtain ⟨zero, one, two, -⟩ := dft_turns turn x 0
  have part0 : terms m v x 0 0 = ofReal (g 0) := parts 0
  have part2 : terms m v x 0 2 = ofReal (g 1) := parts 1
  have part1 : terms m v x 0 1 = ofReal (g 2) := parts 2
  have part3 : terms m v x 0 3 = ofReal (g 3) := parts 3
  rw [part0, part1, part2, part3] at zero one two
  rw [Nat.add_zero] at one two
  fin_cases d
  · rw [halfComplex_low _ (by simp)]
    simp [zero, r2hcI4]
    ring
  · rw [halfComplex_low _ (by simp; omega)]
    simp [one, r2hcI4, Gaussian.i]
  · rw [halfComplex_low _ (by simp; omega)]
    simp [two, r2hcI4]
    ring
  · rw [halfComplex_high (k := m) _ (by simp; omega) (by simp; omega)]
    simp [one, r2hcI4, Gaussian.i]
    ring

variable (circle : v * star v = 1)

include turn circle in
theorem hc2hcF4_forward (some : 0 < j) (low : 2 * j < m) {xr xi : Fin 4 → E} (parts : ∀ d : Fin 4,
      dft m (v ^ 4) (fun k => x (4 * k + reversed 2 d)) j = ⟨xr d, xi d⟩) (d : Fin 4) :
    (hc2hcF4 (star v ^ j) (star v ^ (2 * j)) (star v ^ (3 * j)) xr xi).1 d =
        halfComplex (4 * m) (dft (4 * m) v x) (d * m + j) ∧
      (hc2hcF4 (star v ^ j) (star v ^ (2 * j)) (star v ^ (3 * j)) xr xi).2 d =
        halfComplex (4 * m) (dft (4 * m) v x) (d * m + (m - j)) := by
  have root := root_of_turn turn
  have part0 : terms m v x j 0 = ⟨xr 0, xi 0⟩ := by
    rw [terms, Nat.mul_zero, pow_zero, one_mul]
    exact parts 0
  have turned : ∀ p (d : Fin 4), reversed 2 d = p → terms m v x j p =
      ⟨(cmulConj (xr d) (xi d) (star v ^ (p * j)).re (star v ^ (p * j)).im).1,
        (cmulConj (xr d) (xi d) (star v ^ (p * j)).re (star v ^ (p * j)).im).2⟩ := by
    rintro p d rfl
    have product := cmulConj_eq ⟨xr d, xi d⟩ (star v ^ (reversed 2 d * j))
    rw [product, terms, parts d, star_pow, star_star, Nat.mul_comm j]
    exact mul_comm _ _
  have part2 := turned 2 1 rfl
  have part1 := turned 1 2 rfl
  have part3 := turned 3 3 rfl
  rw [Nat.one_mul] at part1
  obtain ⟨zero, one, two, three⟩ := dft_turns turn x j
  have mirror : ∀ {k}, k ≤ 4 * m → dft (4 * m) v x (4 * m - k) = star (dft (4 * m) v x k) :=
    fun inside => dft_sub root circle x inside
  have two' : dft (4 * m) v x (2 * m - j) = star (dft (4 * m) v x (2 * m + j)) := by
    rw [← mirror (by omega)]
    congr 1
    omega
  have three' : dft (4 * m) v x (m - j) = star (dft (4 * m) v x (3 * m + j)) := by
    rw [← mirror (by omega)]
    congr 1
    omega
  rw [part0, part1, part2, part3] at zero one two three
  simp only [hc2hcF4]
  generalize cmulConj (xr 1) (xi 1) (star v ^ (2 * j)).re (star v ^ (2 * j)).im = y1 at *
  generalize cmulConj (xr 2) (xi 2) (star v ^ j).re (star v ^ j).im = y2 at *
  generalize cmulConj (xr 3) (xi 3) (star v ^ (3 * j)).re (star v ^ (3 * j)).im = y3 at *
  fin_cases d
  · refine ⟨?_, ?_⟩
    · rw [halfComplex_low _ (by simp; omega)]
      simp [zero]
      ring
    · rw [halfComplex_low _ (by simp; omega)]
      simp [three', three, Gaussian.i]
      ring
  · refine ⟨?_, ?_⟩
    · rw [halfComplex_low _ (by simp; omega)]
      simp [one, Gaussian.i]
      ring
    · have index : m + (m - j) = 2 * m - j := by omega
      rw [halfComplex_low _ (by simp; omega)]
      simp [index, two', two]
      ring
  · refine ⟨?_, ?_⟩
    · rw [halfComplex_high (k := 2 * m - j) _ (by simp; omega) (by simp; omega)]
      simp [two', two]
      ring
    · rw [halfComplex_high (k := m + j) _ (by simp; omega) (by simp; omega)]
      simp [one, Gaussian.i]
      ring
  · refine ⟨?_, ?_⟩
    · rw [halfComplex_high (k := m - j) _ (by simp; omega) (by simp; omega)]
      simp [three', three, Gaussian.i]
      ring
    · rw [halfComplex_high (k := j) _ (by simp; omega) (by simp; omega)]
      simp [zero]
      ring

include turn circle in
theorem r2hcIi4_forward (middle : 2 * j = m) (some : 0 < j)
    (diagonal : (star v ^ j).re = (star v ^ j).im) {g : Fin 4 → E} (parts : ∀ d : Fin 4,
      dft m (v ^ 4) (fun k => x (4 * k + reversed 2 d)) j = ofReal (g d)) (d : Fin 4) :
    r2hcIi4 (star v ^ j) g d = halfComplex (4 * m) (dft (4 * m) v x) (d * m + j) := by
  have root := root_of_turn turn
  obtain ⟨zero, one, -, -⟩ := dft_turns turn x j
  have eighth : v ^ j = ⟨(star v ^ j).re, -(star v ^ j).re⟩ := by
    ext
    · show (v ^ j).re = (star v ^ j).re
      rw [← star_pow, QuadraticAlgebra.re_star, zero_mul, add_zero]
    · show (v ^ j).im = -(star v ^ j).re
      rw [diagonal, ← star_pow, QuadraticAlgebra.im_star, neg_neg]
  have part0 : terms m v x j 0 = ofReal (g 0) := by
    rw [terms, Nat.mul_zero, pow_zero, one_mul]
    exact parts 0
  have part1 : terms m v x j 1 = v ^ j * ofReal (g 2) := by
    rw [terms, Nat.mul_one]
    exact congrArg _ (parts 2)
  have part2 : terms m v x j 2 = -Gaussian.i * ofReal (g 1) := by
    rw [terms, Nat.mul_comm, middle, turn]
    exact congrArg _ (parts 1)
  have part3 : terms m v x j 3 = -Gaussian.i * v ^ j * ofReal (g 3) := by
    have exponent : j * 3 = m + j := by omega
    rw [terms, exponent, pow_add, turn]
    exact congrArg _ (parts 3)
  have mirror : dft (4 * m) v x (4 * m - j) = star (dft (4 * m) v x j) :=
    dft_sub root circle x (by omega)
  rw [part0, part1, part2, part3, eighth] at zero one
  rw [r2hcIi4, ← diagonal]
  generalize (star v ^ j).re = r at *
  fin_cases d
  · rw [halfComplex_low _ (by simp; omega)]
    simp [zero, Gaussian.i]
    ring
  · rw [halfComplex_low _ (by simp; omega)]
    simp [one, Gaussian.i]
    ring
  · rw [halfComplex_high (k := m + j) _ (by simp; omega) (by simp; omega)]
    simp [one, Gaussian.i]
    ring
  · rw [halfComplex_high (k := j) _ (by simp; omega) (by simp; omega)]
    simp [zero, Gaussian.i]
    ring

include turn circle in
/-- **A level forward merges four transforms.** -/
theorem merged_forward [NoZeroDivisors E] (two : (2 : E) ≠ 0) {h : ℕ} (double : m = 2 * h)
    (some : 0 < h) {g : ℕ → Fin 4 → E} (parts : ∀ j < m, ∀ d : Fin 4, g j d =
      halfComplex m (dft m (v ^ 4) fun k => x (4 * k + reversed 2 d)) j)
    (inside : j < m) (d : Fin 4) :
    merged forward (star v) m g j d = halfComplex (4 * m) (dft (4 * m) v x) (d * m + j) := by
  have root : (v ^ 4) ^ m = 1 := by
    rw [← pow_mul]
    exact root_of_turn turn
  have circle4 : v ^ 4 * star (v ^ 4) = 1 := circle_pow circle 4
  have both : ∀ k, 0 < k → 2 * k < m → ∀ d : Fin 4,
      dft m (v ^ 4) (fun k => x (4 * k + reversed 2 d)) k = ⟨g k d, g (m - k) d⟩ := by
    intro k positive low d
    rw [parts k (by omega), parts (m - k) (by omega), halfComplex_low _ low.le,
      halfComplex_high (k := k) _ (by omega) (by omega)]
  rw [merged]
  by_cases first : j = 0
  · rw [if_pos first, first, Nat.add_zero]
    refine r2hcI4_forward turn x (by omega) (fun d => ?_) d
    rw [terms, Nat.zero_mul, pow_zero, one_mul, parts 0 (by omega), halfComplex_low _ (by omega),
      dft_zero]
    rfl
  · rw [if_neg first]
    by_cases low : 2 * j < m
    · rw [if_pos low]
      exact (hc2hcF4_forward turn x circle (by omega) low (both j (by omega) low) d).1
    · rw [if_neg low]
      by_cases middle : 2 * j = m
      · obtain rfl : j = h := by omega
        have square : star v ^ j * star v ^ j = Gaussian.i := by
          rw [← pow_add, ← Nat.two_mul, middle, ← star_pow, turn]
          ext <;> simp [Gaussian.i]
        have diagonal := diagonal_of_square
          (by rw [← star_pow, star_star, mul_comm]; exact circle_pow circle j) square
        rw [if_pos middle]
        refine r2hcIi4_forward turn x circle middle some diagonal (fun d => ?_) d
        rw [parts j inside, halfComplex_low _ middle.le]
        ext
        · rfl
        · exact im_dft_half root circle4 two _ middle
      · have back : m - (m - j) = j := by omega
        rw [if_neg middle]
        have pair := (hc2hcF4_forward turn x circle (by omega) (by omega)
          (both (m - j) (by omega) (by omega)) d).2
        rwa [back] at pair

end Forward

end Longfellow.Rfft
