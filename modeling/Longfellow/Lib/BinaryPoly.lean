/-
**Words as polynomials over the field of two elements.**

Bit `i` of a word is the coefficient of `X ^ i`. Exclusive or is addition, shifts and halves are
products with powers of `X`, and a word is determined by its polynomial.

* `testBit_mul_holes` — **integer products with holes**: the product of two integers whose bits stand
  four apart has the bits of the carry-less product at the positions of its class, as long as no
  column of lower weight holds more than fifteen products.
-/

import Mathlib.Algebra.Polynomial.Expand
import Mathlib.Algebra.Field.ZMod

namespace Lib

open Polynomial

/-- A bit as an element of the field of two elements. -/
def bitVal (b : Bool) : ZMod 2 := if b then 1 else 0

@[simp] theorem bitVal_false : bitVal false = 0 := rfl

@[simp] theorem bitVal_true : bitVal true = 1 := rfl

@[simp] theorem bitVal_xor (a b : Bool) : bitVal (a ^^ b) = bitVal a + bitVal b := by
  cases a <;> cases b <;> decide

theorem bitVal_injective : Function.Injective bitVal := by decide

theorem cast_bit (b : Bool) : ((b.toNat : ℕ) : ZMod 2) = bitVal b := by cases b <;> rfl

theorem bitVal_testBit_zero (n : ℕ) : bitVal (n.testBit 0) = (n : ZMod 2) := by
  rw [Nat.testBit_zero]
  rcases Nat.mod_two_eq_zero_or_one n with even | odd
  · rw [even, (ZMod.natCast_eq_zero_iff n 2).mpr (Nat.dvd_of_mod_eq_zero even)]
    rfl
  · have shape : n = 2 * (n / 2) + 1 := by omega
    have two : (2 : ZMod 2) = 0 := rfl
    rw [odd, shape, Nat.cast_add, Nat.cast_mul, Nat.cast_ofNat, two, zero_mul, zero_add]
    rfl

variable {w v : ℕ} {n : ℕ}

/-- The polynomial of a word. -/
noncomputable def toPoly (x : BitVec w) : (ZMod 2)[X] :=
  ∑ i ∈ Finset.range w, C (bitVal (x.getLsbD i)) * X ^ i

theorem coeff_toPoly (x : BitVec w) (k : ℕ) : (toPoly x).coeff k = bitVal (x.getLsbD k) := by
  simp only [toPoly, finsetSum_coeff, coeff_C_mul_X_pow, Finset.sum_ite_eq, Finset.mem_range]
  split
  · rfl
  · rw [BitVec.getLsbD_of_ge x k (by omega), bitVal_false]

theorem toPoly_injective : Function.Injective (toPoly : BitVec w → (ZMod 2)[X]) := by
  intro x y same
  refine BitVec.eq_of_getLsbD_eq fun i _ => bitVal_injective ?_
  rw [← coeff_toPoly, ← coeff_toPoly, same]

theorem degree_toPoly_lt (x : BitVec w) : (toPoly x).degree < w := by
  refine (degree_lt_iff_coeff_zero _ _).mpr fun k high => ?_
  rw [coeff_toPoly, BitVec.getLsbD_of_ge x k high, bitVal_false]

/-! ### Word operations -/

@[simp] theorem toPoly_zero : toPoly (0#w) = 0 := by
  ext k
  simp [coeff_toPoly]

@[simp] theorem toPoly_xor (x y : BitVec w) : toPoly (x ^^^ y) = toPoly x + toPoly y := by
  ext k
  rw [coeff_toPoly, coeff_add, coeff_toPoly, coeff_toPoly, BitVec.getLsbD_xor, bitVal_xor]

theorem toPoly_one (pos : 0 < w) : toPoly (1#w) = 1 := by
  ext k
  rw [coeff_toPoly, coeff_one, BitVec.getLsbD_one, decide_eq_true pos, Bool.true_and]
  rcases eq_or_ne k 0 with rfl | other
  · simp
  · simp [other]

theorem toPoly_append (hi : BitVec w) (lo : BitVec v) :
    toPoly (hi ++ lo) = toPoly lo + X ^ v * toPoly hi := by
  ext k
  rw [coeff_add, coeff_X_pow_mul', coeff_toPoly, coeff_toPoly, BitVec.getLsbD_append]
  by_cases low : k < v
  · simp [low, Nat.not_le_of_lt low]
  · rw [if_neg low, if_pos (by omega), coeff_toPoly, BitVec.getLsbD_of_ge lo k (by omega),
      bitVal_false, zero_add]

theorem toPoly_setWidth (x : BitVec w) (fits : w ≤ v) : toPoly (x.setWidth v) = toPoly x := by
  ext k
  rw [coeff_toPoly, coeff_toPoly, BitVec.getLsbD_setWidth]
  by_cases inside : k < v
  · simp [inside]
  · simp [inside, BitVec.getLsbD_of_ge x k (by omega)]

theorem toPoly_split (x : BitVec n) (size : n = w + v) :
    toPoly x = toPoly (x.extractLsb' 0 w) + X ^ w * toPoly (x.extractLsb' w v) := by
  ext k
  rw [coeff_add, coeff_X_pow_mul', coeff_toPoly, coeff_toPoly, BitVec.getLsbD_extractLsb', Nat.zero_add]
  by_cases low : k < w
  · simp [low, Nat.not_le_of_lt low]
  · rw [if_pos (by omega), coeff_toPoly, BitVec.getLsbD_extractLsb', decide_eq_false low,
      Bool.false_and, bitVal_false, zero_add, Nat.add_sub_cancel' (by omega)]
    by_cases inside : k - w < v
    · simp [inside]
    · rw [BitVec.getLsbD_of_ge x k (by omega), Bool.and_false]

/-- A shift by `s`: what stays in the word and what leaves it. -/
theorem X_pow_mul_toPoly (x : BitVec w) {s : ℕ} (bound : s ≤ w) :
    X ^ s * toPoly x = toPoly (x <<< s) + X ^ w * toPoly (x >>> (w - s)) := by
  ext k
  rw [coeff_X_pow_mul', coeff_add, coeff_X_pow_mul', coeff_toPoly, coeff_toPoly,
    BitVec.getLsbD_shiftLeft]
  by_cases low : k < w
  · rw [if_neg (Nat.not_le_of_lt low), add_zero, decide_eq_true low, Bool.true_and]
    by_cases under : k < s
    · rw [if_neg (Nat.not_le_of_lt under), decide_eq_true under, Bool.not_true, Bool.false_and,
        bitVal_false]
    · rw [if_pos (by omega), decide_eq_false under, Bool.not_false, Bool.true_and]
  · rw [if_pos (by omega), if_pos (by omega), decide_eq_false low, Bool.false_and, Bool.false_and,
      bitVal_false, zero_add, coeff_toPoly, BitVec.getLsbD_ushiftRight,
      show w - s + (k - w) = k - s by omega]

theorem toPoly_shiftRight_one (x : BitVec w) :
    toPoly x = C (bitVal (x.getLsbD 0)) + X * toPoly (x >>> 1) := by
  ext k
  rw [coeff_add]
  cases k with
  | zero => rw [coeff_C_zero, coeff_X_mul_zero, coeff_toPoly, add_zero]
  | succ k =>
    rw [coeff_C_succ, coeff_X_mul, coeff_toPoly, coeff_toPoly, BitVec.getLsbD_ushiftRight,
      zero_add, Nat.add_comm]

theorem toPoly_shiftRight_last (x : BitVec w) :
    toPoly (x >>> (w - 1)) = C (bitVal (x.getLsbD (w - 1))) := by
  ext k
  rw [coeff_toPoly, BitVec.getLsbD_ushiftRight]
  cases k with
  | zero => rw [coeff_C_zero, Nat.add_zero]
  | succ k => rw [coeff_C_succ, BitVec.getLsbD_of_ge x _ (by omega), bitVal_false]

theorem toPoly_twoPow {s : ℕ} (bound : s < w) : toPoly (BitVec.twoPow w s) = X ^ s := by
  ext k
  rw [coeff_toPoly, coeff_X_pow, BitVec.getLsbD_twoPow, decide_eq_true bound, Bool.true_and]
  rcases eq_or_ne k s with rfl | other
  · simp
  · simp [other, other.symm]

theorem and_one_ne_zero (x : BitVec w) (pos : 0 < w) :
    x &&& 1#w ≠ 0#w ↔ x.getLsbD 0 = true := by
  rw [BitVec.and_one_eq_setWidth_ofBool_getLsbD]
  cases x.getLsbD 0
  · simp
  · simp [BitVec.toNat_eq, Nat.one_mod_two_pow_eq_one.mpr pos]

theorem toPoly_reverse (x : BitVec w) : toPoly x.reverse = reflect (w - 1) (toPoly x) := by
  ext k
  rw [coeff_toPoly, coeff_reflect, coeff_toPoly, BitVec.getLsbD_reverse, BitVec.getMsbD_eq_getLsbD]
  by_cases inside : k < w
  · rw [revAt_le (by omega), decide_eq_true inside, Bool.true_and]
  · rw [decide_eq_false inside, Bool.false_and, bitVal_false]
    rcases Nat.eq_or_lt_of_le (show w - 1 ≤ k by omega) with last | beyond
    · rw [revAt_le last.ge, BitVec.getLsbD_of_ge x (w - 1 - k) (by omega), bitVal_false]
    · rw [revAt_eq_self_of_lt beyond, BitVec.getLsbD_of_ge x k (by omega), bitVal_false]

/-! ### Integer products with holes -/

/-- The bits of `x` at `i`, `i + 4`, and so on, as coefficients. -/
noncomputable def column (x i n : ℕ) : ℕ[X] :=
  ∑ u ∈ Finset.range n, C (x.testBit (i + 4 * u)).toNat * X ^ u

theorem coeff_column (x i n u : ℕ) :
    (column x i n).coeff u = if u < n then (x.testBit (i + 4 * u)).toNat else 0 := by
  simp only [column, finsetSum_coeff, coeff_C_mul_X_pow, Finset.sum_ite_eq, Finset.mem_range]

theorem coeff_column_le (x i n u : ℕ) : (column x i n).coeff u ≤ 1 := by
  rw [coeff_column]
  split
  · exact Bool.toNat_le _
  · exact Nat.zero_le 1

theorem eval_div_mod (F : ℕ[X]) (m : ℕ) (small : ∀ k < m, F.coeff k < 16) :
    F.eval 16 / 16 ^ m % 16 = F.coeff m % 16 := by
  induction m generalizing F with
  | zero =>
    have shape := congrArg (eval 16) (divX_mul_X_add F)
    simp only [eval_add, eval_mul, eval_X, eval_C] at shape
    rw [pow_zero, Nat.div_one]
    omega
  | succ m ih =>
    have shape := congrArg (eval 16) (divX_mul_X_add F)
    simp only [eval_add, eval_mul, eval_X, eval_C] at shape
    have first := small 0 (Nat.succ_pos m)
    have rest : F.eval 16 / 16 = F.divX.eval 16 := by omega
    have later : ∀ k < m, F.divX.coeff k < 16 := fun k below => by
      rw [coeff_divX]
      exact small (k + 1) (by omega)
    rw [pow_succ', ← Nat.div_div_eq_div_mul, rest, ih F.divX later, coeff_divX]

theorem testBit_eval (F : ℕ[X]) {m s : ℕ} (small : ∀ k < m, F.coeff k < 16) (inside : s < 4) :
    (F.eval 16).testBit (4 * m + s) = (F.coeff m).testBit s := by
  have low : ∀ n : ℕ, (n % 16).testBit s = n.testBit s := fun n => by
    rw [show (16 : ℕ) = 2 ^ 4 from rfl, Nat.testBit_mod_two_pow, decide_eq_true inside,
      Bool.true_and]
  have shifted : (16 : ℕ) ^ m = 2 ^ (4 * m) := by
    rw [pow_mul]
    rfl
  rw [Nat.add_comm, ← Nat.testBit_div_two_pow, ← shifted, ← low, eval_div_mod F m small, low]

/-- The bits of `x` stand at `i`, `i + 4`, and so on, `n` of them. -/
def Holed (x i n : ℕ) : Prop := ∀ p, x.testBit p = true → ∃ u < n, p = i + 4 * u

theorem Holed.eq_eval {x i : ℕ} (holed : Holed x i n) : x = 2 ^ i * (column x i n).eval 16 := by
  have digits : ∀ m, ∀ k < m, (column x i n).coeff k < 16 := fun _ k _ =>
    lt_of_le_of_lt (coeff_column_le x i n k) (by decide)
  refine Nat.eq_of_testBit_eq fun p => ?_
  rw [Nat.testBit_two_pow_mul]
  by_cases low : p < i
  · rw [decide_eq_false (by omega), Bool.false_and, ← Bool.not_eq_true]
    intro set
    obtain ⟨u, -, rfl⟩ := holed p set
    omega
  · rw [decide_eq_true (by omega), Bool.true_and]
    obtain ⟨u, s, inside, rfl⟩ : ∃ u s, s < 4 ∧ p = i + (4 * u + s) :=
      ⟨(p - i) / 4, (p - i) % 4, Nat.mod_lt _ (by decide), by omega⟩
    rw [Nat.add_sub_cancel_left, testBit_eval _ (digits u) inside, coeff_column]
    rcases Nat.eq_zero_or_pos s with rfl | between
    · split
      · rw [Nat.add_zero]
        cases x.testBit (i + 4 * u) <;> rfl
      · rw [Nat.zero_testBit, ← Bool.not_eq_true]
        intro set
        obtain ⟨u', bound, same⟩ := holed _ set
        omega
    · have none : x.testBit (i + (4 * u + s)) = false := by
        rw [← Bool.not_eq_true]
        intro set
        obtain ⟨u', -, same⟩ := holed _ set
        omega
      rw [none]
      split
      · cases x.testBit (i + 4 * u)
        · simp
        · exact (Nat.testBit_lt_two_pow (Nat.one_lt_two_pow between.ne')).symm
      · simp

theorem coeff_column_mul_le (x y i j n m : ℕ) :
    (column x i n * column y j n).coeff m ≤ m + 1 := by
  rw [coeff_mul]
  calc _ ≤ ∑ _p ∈ Finset.HasAntidiagonal.antidiagonal m, 1 :=
        Finset.sum_le_sum fun p _ => Nat.mul_le_mul (coeff_column_le ..) (coeff_column_le ..)
    _ = m + 1 := by simp

/-- **The product of two numbers with holes**: no column of the first fifteen carries into a
later one. -/
theorem testBit_mul_holes {x y i j m : ℕ} (holed : Holed x i n) (holed' : Holed y j n)
    (low : m ≤ 15) : bitVal ((x * y).testBit (i + j + 4 * m)) =
      ((column x i n * column y j n).coeff m : ZMod 2) := by
  have small : ∀ k < m, (column x i n * column y j n).coeff k < 16 := fun k below =>
    lt_of_le_of_lt (coeff_column_mul_le x y i j n k) (by omega)
  have shape : x * y = 2 ^ (i + j) * (column x i n * column y j n).eval 16 := by
    conv_lhs => rw [holed.eq_eval, holed'.eq_eval]
    rw [eval_mul, pow_add]
    ring
  rw [shape, Nat.testBit_two_pow_mul, decide_eq_true (by omega), Bool.true_and,
    Nat.add_sub_cancel_left, ← Nat.add_zero (4 * m), testBit_eval _ small (by decide),
    bitVal_testBit_zero]

theorem testBit_mul_below {x y i j p : ℕ} (holed : Holed x i n) (holed' : Holed y j n)
    (below : p < i + j) : (x * y).testBit p = false := by
  have shape : x * y = 2 ^ (i + j) * ((column x i n).eval 16 * (column y j n).eval 16) := by
    conv_lhs => rw [holed.eq_eval, holed'.eq_eval]
    rw [pow_add]
    ring
  rw [shape, Nat.testBit_two_pow_mul, decide_eq_false (by omega), Bool.false_and]

/-- A class of a word, as a polynomial over the field of two elements. -/
noncomputable def bitColumn (x i n : ℕ) : (ZMod 2)[X] :=
  (column x i n).map (Nat.castRingHom (ZMod 2))

/-- The products of two classes. -/
noncomputable def columnProduct (x y n i j : ℕ) : (ZMod 2)[X] :=
  X ^ (i + j) * expand (ZMod 2) 4 (bitColumn x i n * bitColumn y j n)

/-- **A word is the sum of its four classes.** -/
theorem toPoly_eq_columns (x : BitVec w) (size : w = 4 * n) :
    toPoly x = ∑ i ∈ Finset.range 4, X ^ i * expand (ZMod 2) 4 (bitColumn x.toNat i n) := by
  ext k
  have cell : ∀ i, (X ^ i * expand (ZMod 2) 4 (bitColumn x.toNat i n)).coeff k =
      if i ≤ k ∧ 4 ∣ k - i then bitVal (x.getLsbD k) else 0 := by
    intro i
    rw [coeff_X_pow_mul', coeff_expand (by decide), bitColumn, coeff_map, coeff_column]
    by_cases above : i ≤ k
    · by_cases aligned : 4 ∣ k - i
      · have place : i + 4 * ((k - i) / 4) = k := by omega
        have both : i ≤ k ∧ 4 ∣ k - i := ⟨above, aligned⟩
        rw [if_pos above, if_pos aligned, if_pos both, place, BitVec.testBit_toNat]
        by_cases inside : (k - i) / 4 < n
        · rw [if_pos inside]
          exact cast_bit _
        · rw [if_neg inside, BitVec.getLsbD_of_ge x k (by omega), bitVal_false, map_zero]
      · rw [if_pos above, if_neg aligned, if_neg fun both => aligned both.2]
    · rw [if_neg above, if_neg fun both => above both.1]
  rw [finsetSum_coeff, Finset.sum_congr rfl fun i _ => cell i, coeff_toPoly,
    Finset.sum_eq_single_of_mem (k % 4) (Finset.mem_range.mpr (Nat.mod_lt _ (by decide)))]
  · rw [if_pos ⟨Nat.mod_le k 4, by omega⟩]
  · intro i member other
    rw [Finset.mem_range] at member
    exact if_neg fun both => other (by omega)

theorem toPoly_mul_eq_columns (x y : BitVec w) (size : w = 4 * n) :
    toPoly x * toPoly y =
      ∑ i ∈ Finset.range 4, ∑ j ∈ Finset.range 4, columnProduct x.toNat y.toNat n i j := by
  rw [toPoly_eq_columns x size, toPoly_eq_columns y size, Finset.sum_mul_sum]
  refine Finset.sum_congr rfl fun i _ => Finset.sum_congr rfl fun j _ => ?_
  rw [columnProduct, map_mul, pow_add]
  ring

theorem coeff_columnProduct_other {x y i j k : ℕ} (other : (i + j) % 4 ≠ k % 4) :
    (columnProduct x y n i j).coeff k = 0 := by
  rw [columnProduct, coeff_X_pow_mul', coeff_expand (by decide)]
  by_cases above : i + j ≤ k
  · rw [if_pos above, if_neg fun aligned => other (by omega)]
  · rw [if_neg above]

/-- **The bits of an integer product with holes** are the products of two classes. -/
theorem bitVal_mul_holes {x y x' y' i j k : ℕ} (holed : Holed x' i n) (holed' : Holed y' j n)
    (same : column x' i n = column x i n) (same' : column y' j n = column y j n)
    (aligned : (i + j) % 4 = k % 4) (low : k < 64) :
    bitVal ((x' * y').testBit k) = (columnProduct x y n i j).coeff k := by
  rw [columnProduct, coeff_X_pow_mul', coeff_expand (by decide)]
  by_cases above : i + j ≤ k
  · obtain ⟨m, rfl⟩ : ∃ m, k = i + j + 4 * m := ⟨(k - (i + j)) / 4, by omega⟩
    rw [if_pos above, if_pos (by omega), testBit_mul_holes holed holed' (by omega), same, same',
      bitColumn, bitColumn, ← Polynomial.map_mul, coeff_map, Nat.add_sub_cancel_left,
      Nat.mul_div_cancel_left m (by decide)]
    rfl
  · rw [if_neg above, testBit_mul_below holed holed' (by omega), bitVal_false]

end Lib
