/-
**Morton order** (`util/src/morton.rs`).

Pairs are compared by the highest bit in which they differ, with the second coordinate above the
first at the same bit.

* `cmp_step` — one bit of the comparison; `cmp_eq_compare` — **the comparison is the one of the
  interleaved integers**.
-/

import Mathlib.Data.Nat.Bitwise
import Mathlib.Tactic.Ring

namespace Longfellow.Morton

/-- Whether `x` is the smaller one, by the bit `msb` in which it differs from the other. -/
def lessAt (x msb : Nat) : Ordering := if (x >>> msb) &&& 1 = 0 then .lt else .gt

/-- Compare the pairs `(x0, x1)` and `(y0, y1)`. -/
def cmp (x0 x1 y0 y1 : Nat) : Ordering :=
  let diff0 := x0 ^^^ y0
  let diff1 := x1 ^^^ y1
  if diff0 = 0 ∧ diff1 = 0 then .eq
  else if diff1 = 0 then lessAt x0 diff0.log2
  else if diff0 = 0 then lessAt x1 diff1.log2
  else if diff1.log2 ≥ diff0.log2 then lessAt x1 diff1.log2
  else lessAt x0 diff0.log2

/-- The first `k` bits of the interleaved integer, starting with the lowest bit of `x`. -/
def interleave : Nat → Nat → Nat → Nat
  | 0, _, _ => 0
  | k + 1, x, y => x % 2 + 2 * interleave k y (x / 2)

/-! ### The interleaved integer -/

theorem interleave_half (k x y : Nat) : interleave (k + 1) x y / 2 = interleave k y (x / 2) := by
  rw [interleave]
  omega

theorem interleave_low (k x y : Nat) : interleave (k + 1) x y % 2 = x % 2 := by
  rw [interleave]
  omega

/-- **The bits of the two coordinates in turn**, the first coordinate at the even places. -/
theorem testBit_interleave (k x y i : Nat) : (interleave k x y).testBit i =
    (decide (i < k) && (if i % 2 = 0 then x else y).testBit (i / 2)) := by
  induction k generalizing x y i with
  | zero => simp [interleave]
  | succ k ih => cases i with
    | zero => simp [Nat.testBit_zero, interleave_low]
    | succ i =>
      rw [Nat.testBit_add_one, interleave_half, ih]
      rcases Nat.mod_two_eq_zero_or_one i with even | odd
      · rw [if_pos even, if_neg (by omega), show (i + 1) / 2 = i / 2 by omega]
        simp
      · rw [if_neg (by omega), if_pos (by omega), show (i + 1) / 2 = i / 2 + 1 by omega,
          Nat.testBit_add_one]
        simp

/-- The coordinates that `k` bits hold. -/
def Fits (k x y : Nat) : Prop := x < 2 ^ ((k + 1) / 2) ∧ y < 2 ^ (k / 2)

theorem Fits.next {k x y : Nat} (fits : Fits (k + 1) x y) : Fits k y (x / 2) := by
  obtain ⟨fitsX, fitsY⟩ := fits
  have half : (k + 1 + 1) / 2 = k / 2 + 1 := by omega
  rw [half, pow_succ] at fitsX
  exact ⟨fitsY, by omega⟩

theorem Fits.zero {x y : Nat} (fits : Fits 0 x y) : x = 0 ∧ y = 0 := by
  obtain ⟨fitsX, fitsY⟩ := fits
  simp only [Nat.zero_add, Nat.zero_div, pow_zero, Nat.reduceDiv] at fitsX fitsY
  omega

theorem interleave_inj {k x y x' y' : Nat} (fits : Fits k x y) (fits' : Fits k x' y')
    (same : interleave k x y = interleave k x' y') : x = x' ∧ y = y' := by
  induction k generalizing x y x' y' with
  | zero =>
    obtain ⟨rfl, rfl⟩ := fits.zero
    obtain ⟨rfl, rfl⟩ := fits'.zero
    exact ⟨rfl, rfl⟩
  | succ k ih =>
    have low : x % 2 = x' % 2 := by rw [← interleave_low k x y, same, interleave_low]
    have high : interleave k y (x / 2) = interleave k y' (x' / 2) := by
      rw [← interleave_half, same, interleave_half]
    obtain ⟨sameY, sameX⟩ := ih fits.next fits'.next high
    exact ⟨by omega, sameY⟩

/-! ### The comparison -/

theorem lessAt_succ (x msb : Nat) : lessAt x (msb + 1) = lessAt (x / 2) msb := by
  rw [lessAt, lessAt, Nat.shiftRight_succ_inside]

theorem lessAt_zero (x : Nat) : lessAt x 0 = if x % 2 = 0 then .lt else .gt := by
  rw [lessAt, Nat.shiftRight_zero, Nat.and_one_is_mod]

theorem log2_half {d : Nat} (big : d / 2 ≠ 0) : d.log2 = (d / 2).log2 + 1 := by
  rw [Nat.log2_def, if_pos (by omega)]

/-- **One bit of the comparison**: the lowest bit decides when the rest agrees, and in the rest the
coordinates have swapped their roles. -/
theorem cmp_step (x0 x1 y0 y1 : Nat) :
    cmp x0 x1 y0 y1 = (cmp x1 (x0 / 2) y1 (y0 / 2)).then (compare (x0 % 2) (y0 % 2)) := by
  have half : x0 / 2 ^^^ y0 / 2 = (x0 ^^^ y0) / 2 := Nat.xor_div_two.symm
  have low : (x0 ^^^ y0) % 2 = (x0 % 2 + y0 % 2) % 2 := by
    rw [Nat.xor_mod_two_eq, Nat.add_mod]
  have lessAt_then : ∀ x msb o, (lessAt x msb).then o = lessAt x msb := by
    intro x msb o
    unfold lessAt
    split <;> rfl
  unfold cmp
  simp only [half]
  by_cases same : (x0 ^^^ y0) / 2 = 0
  · -- Only the lowest bit of the first coordinates can differ.
    by_cases zero : x0 ^^^ y0 = 0
    · have bits : compare (x0 % 2) (y0 % 2) = .eq := by
        rw [Nat.compare_eq_eq]
        omega
      by_cases other : x1 ^^^ y1 = 0
      · simp [zero, other, bits]
      · simp [zero, other, lessAt_then]
    · have one : x0 ^^^ y0 = 1 := by omega
      by_cases other : x1 ^^^ y1 = 0
      · rw [one] at low
        have bits : lessAt x0 0 = compare (x0 % 2) (y0 % 2) := by
          rw [lessAt_zero]
          rcases Nat.mod_two_eq_zero_or_one x0 with even | odd
          · rw [if_pos even, even, show y0 % 2 = 1 by omega]
            rfl
          · rw [if_neg (by omega), odd, show y0 % 2 = 0 by omega]
            rfl
        simp [one, other, bits, Nat.log2_def 1]
      · simp [one, other, lessAt_then, Nat.log2_def 1]
  · have zero : x0 ^^^ y0 ≠ 0 := by omega
    have log := log2_half same
    by_cases other : x1 ^^^ y1 = 0
    · simp [same, zero, other, log, lessAt_succ, lessAt_then]
    · by_cases above : (x1 ^^^ y1).log2 ≥ (x0 ^^^ y0).log2
      · have below : ¬ ((x0 ^^^ y0) / 2).log2 ≥ (x1 ^^^ y1).log2 := by omega
        simp [same, zero, other, above, below, lessAt_then]
      · have below : ((x0 ^^^ y0) / 2).log2 ≥ (x1 ^^^ y1).log2 := by omega
        have bit : lessAt x0 (x0 ^^^ y0).log2 = lessAt (x0 / 2) ((x0 ^^^ y0) / 2).log2 := by
          rw [log, lessAt_succ]
        simp [same, zero, other, above, below, lessAt_then, bit]

theorem compare_halves (a b p q : Nat) (bitA : a < 2) (bitB : b < 2) :
    compare (a + 2 * p) (b + 2 * q) = (compare p q).then (compare a b) := by
  rcases Nat.lt_trichotomy p q with less | rfl | more
  · rw [Nat.compare_eq_lt.mpr less, Nat.compare_eq_lt.mpr (by omega)]
    rfl
  · rw [Nat.compare_eq_eq.mpr rfl]
    rcases Nat.lt_trichotomy a b with less | rfl | more
    · rw [Nat.compare_eq_lt.mpr less, Nat.compare_eq_lt.mpr (by omega)]
      rfl
    · rw [Nat.compare_eq_eq.mpr rfl, Nat.compare_eq_eq.mpr rfl]
      rfl
    · rw [Nat.compare_eq_gt.mpr more, Nat.compare_eq_gt.mpr (by omega)]
      rfl
  · rw [Nat.compare_eq_gt.mpr more, Nat.compare_eq_gt.mpr (by omega)]
    rfl

/-- **The comparison is the one of the interleaved integers.** -/
theorem cmp_eq_compare {k x0 x1 y0 y1 : Nat} (fitsX : Fits k x0 x1) (fitsY : Fits k y0 y1) :
    cmp x0 x1 y0 y1 = compare (interleave k x0 x1) (interleave k y0 y1) := by
  induction k generalizing x0 x1 y0 y1 with
  | zero =>
    obtain ⟨rfl, rfl⟩ := fitsX.zero
    obtain ⟨rfl, rfl⟩ := fitsY.zero
    rfl
  | succ k ih =>
    rw [cmp_step, ih fitsX.next fitsY.next, interleave, interleave,
      compare_halves _ _ _ _ (Nat.mod_lt _ two_pos) (Nat.mod_lt _ two_pos)]

end Longfellow.Morton
