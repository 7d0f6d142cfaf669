/-
**Carry-less arithmetic of numbers, and orders of elements.**

The bits of a number are the coefficients of a polynomial over the field of two elements, so that
products modulo `X ^ w + t` are computed on numbers. The order of an element of a monoid is
computed from its powers, by the primes of a multiple of the order.

* `orderOf_of_cofactors` — **the order**, from the powers that leave out one prime each.
-/

import Longfellow.Lib.BinaryPoly
import Mathlib.Tactic.LinearCombination

namespace Lib

open Polynomial

/-! ### Numbers as polynomials -/

/-- The polynomial of the bits of a number. -/
noncomputable def natPoly (n : ℕ) : (ZMod 2)[X] := toPoly (BitVec.ofNat (n + 1) n)

theorem coeff_natPoly (n k : ℕ) : (natPoly n).coeff k = bitVal (n.testBit k) := by
  rw [natPoly, coeff_toPoly, BitVec.getLsbD_ofNat]
  by_cases inside : k < n + 1
  · rw [decide_eq_true inside, Bool.true_and]
  · have small : n < 2 ^ k := lt_of_lt_of_le (Nat.lt_two_pow_self) (Nat.pow_le_pow_right
      (by decide) (by omega))
    rw [Nat.testBit_lt_two_pow small, Bool.and_false]

theorem toPoly_eq_natPoly {w : ℕ} (x : BitVec w) : toPoly x = natPoly x.toNat := by
  ext k
  rw [coeff_toPoly, coeff_natPoly, BitVec.testBit_toNat]

@[simp] theorem natPoly_zero : natPoly 0 = 0 := by
  ext k
  rw [coeff_natPoly, Nat.zero_testBit, bitVal_false, coeff_zero]

@[simp] theorem natPoly_one : natPoly 1 = 1 := toPoly_one (by decide)

theorem natPoly_two_pow (k : ℕ) : natPoly (2 ^ k) = X ^ k := by
  ext i
  rw [coeff_natPoly, Nat.testBit_two_pow, coeff_X_pow]
  by_cases same : k = i
  · rw [decide_eq_true same, bitVal_true, if_pos same.symm]
  · rw [decide_eq_false same, bitVal_false, if_neg (Ne.symm same)]

@[simp] theorem natPoly_xor (a b : ℕ) : natPoly (a ^^^ b) = natPoly a + natPoly b := by
  ext k
  rw [coeff_natPoly, coeff_add, coeff_natPoly, coeff_natPoly, Nat.testBit_xor, bitVal_xor]

theorem natPoly_split (n s : ℕ) :
    natPoly n = natPoly (n % 2 ^ s) + X ^ s * natPoly (n / 2 ^ s) := by
  ext k
  rw [coeff_add, coeff_X_pow_mul', coeff_natPoly, coeff_natPoly, Nat.testBit_mod_two_pow]
  by_cases low : k < s
  · rw [decide_eq_true low, Bool.true_and, if_neg (by omega), add_zero]
  · rw [decide_eq_false low, Bool.false_and, bitVal_false, if_pos (by omega), coeff_natPoly,
      Nat.testBit_div_two_pow, Nat.sub_add_cancel (by omega), zero_add]

theorem natPoly_double (n : ℕ) : natPoly (2 * n) = X * natPoly n := by
  have split := natPoly_split (2 * n) 1
  rw [pow_one, Nat.mul_mod_right, natPoly_zero, zero_add, Nat.mul_div_cancel_left n (by decide),
    pow_one] at split
  exact split

theorem natPoly_bit_mul (n a : ℕ) : natPoly (n % 2 * a) = natPoly (n % 2) * natPoly a := by
  rcases Nat.mod_two_eq_zero_or_one n with even | odd
  · rw [even, Nat.zero_mul, natPoly_zero, zero_mul]
  · rw [odd, Nat.one_mul, natPoly_one, one_mul]

/-! ### Products and remainders -/

/-- The product of a number with the low bits of another one, without carries. -/
def clmul (a : ℕ) : ℕ → ℕ → ℕ
  | 0, _ => 0
  | n + 1, b => 2 * clmul a n (b / 2) ^^^ b % 2 * a

theorem natPoly_clmul (a : ℕ) {n b : ℕ} (fits : b < 2 ^ n) :
    natPoly (clmul a n b) = natPoly a * natPoly b := by
  induction n generalizing b with
  | zero =>
    obtain rfl : b = 0 := by simpa using fits
    rw [clmul, natPoly_zero, mul_zero]
  | succ n ih =>
    have half : b / 2 < 2 ^ n := by
      rw [Nat.pow_succ] at fits
      omega
    have split := natPoly_split b 1
    rw [pow_one, pow_one] at split
    rw [clmul, natPoly_xor, natPoly_double, ih half, natPoly_bit_mul, split]
    ring

theorem clmul_lt {a k : ℕ} (small : a < 2 ^ k) (n b : ℕ) : clmul a n b < 2 ^ (k + n) := by
  induction n generalizing b with
  | zero => exact Nat.two_pow_pos _
  | succ n ih =>
    have low := Nat.mod_lt b (show 0 < 2 by decide)
    have bit : b % 2 * a ≤ a := (Nat.mul_le_mul_right a (Nat.le_of_lt_succ low)).trans_eq a.one_mul
    have wide : 2 ^ k ≤ 2 ^ (k + (n + 1)) := Nat.pow_le_pow_right (by decide) (by omega)
    rw [clmul]
    apply Nat.xor_lt_two_pow
    · have rest := ih (b / 2)
      rw [← Nat.add_assoc, Nat.pow_succ]
      omega
    · exact bit.trans_lt (small.trans_le wide)

/-- One reduction modulo `X ^ w` plus the bits of `t`, which are `n` at most. -/
def reduce (w n t r : ℕ) : ℕ := r % 2 ^ w ^^^ clmul (r / 2 ^ w) n t

/-- **A reduction** changes a number by a multiple of the modulus. -/
theorem natPoly_reduce {w n t : ℕ} (fits : t < 2 ^ n) (r : ℕ) :
    natPoly r = natPoly (reduce w n t r) + (X ^ w + natPoly t) * natPoly (r / 2 ^ w) := by
  have two : (2 : (ZMod 2)[X]) = 0 := CharTwo.two_eq_zero
  rw [reduce, natPoly_xor, natPoly_clmul _ fits, natPoly_split r w]
  linear_combination -natPoly (r / 2 ^ w) * natPoly t * two

theorem reduce_lt {w k n m r : ℕ} (t : ℕ) (low : w ≤ m) (high : k + n ≤ m) (small : r < 2 ^ (w + k)) :
    reduce w n t r < 2 ^ m := by
  have top : r / 2 ^ w < 2 ^ k := Nat.div_lt_of_lt_mul (by rwa [← Nat.pow_add])
  apply Nat.xor_lt_two_pow
  · exact (Nat.mod_lt r (Nat.two_pow_pos w)).trans_le (Nat.pow_le_pow_right (by decide) low)
  · exact (clmul_lt top n t).trans_le (Nat.pow_le_pow_right (by decide) high)

/-! ### Powers by squaring -/

section Powers

variable {A M : Type} [Monoid M] {mul : A → A → A} {one : A} {eval : A → M}

/-- The power of an element, by squaring. The fuel bounds the bits of the exponent. -/
def fastPow (mul : A → A → A) (one a : A) : ℕ → ℕ → A
  | 0, _ => one
  | fuel + 1, n =>
    if n = 0 then one
    else
      let root := fastPow mul one a fuel (n / 2)
      let square := mul root root
      if n % 2 = 1 then mul square a else square

theorem fastPow_spec (evalMul : ∀ a b, eval (mul a b) = eval a * eval b) (evalOne : eval one = 1)
    (a : A) {fuel n : ℕ} (fits : n < 2 ^ fuel) :
    eval (fastPow mul one a fuel n) = eval a ^ n := by
  induction fuel generalizing n with
  | zero =>
    obtain rfl : n = 0 := by simpa using fits
    rw [fastPow, evalOne, pow_zero]
  | succ fuel ih =>
    rw [fastPow]
    by_cases zero : n = 0
    · rw [if_pos zero, evalOne, zero, pow_zero]
    · have half : n / 2 < 2 ^ fuel := by
        rw [Nat.pow_succ] at fits
        omega
      rw [if_neg zero]
      dsimp only
      rcases Nat.mod_two_eq_zero_or_one n with even | odd
      · rw [if_neg (by omega), evalMul, ih half, ← pow_add]
        congr 1
        omega
      · rw [if_pos odd, evalMul, evalMul, ih half, ← pow_add, ← pow_succ]
        congr 1
        omega

/-- The powers that leave out one of the factors each, and the power by all of them. -/
def cofactorPowers (mul : A → A → A) (one a : A) (fuel : ℕ) : List ℕ → List A
  | [] => [a]
  | f :: fs => fastPow mul one a fuel fs.prod ::
      cofactorPowers mul one (fastPow mul one a fuel f) fuel fs

/-- **The powers that leave out one factor**, and the one that leaves out none. -/
theorem cofactorPowers_spec (evalMul : ∀ a b, eval (mul a b) = eval a * eval b)
    (evalOne : eval one = 1) (a : A) {fuel : ℕ} {fs : List ℕ} (some : ∀ f ∈ fs, 0 < f)
    (fits : fs.prod < 2 ^ fuel) :
    (cofactorPowers mul one a fuel fs).map eval =
      (fs.map fun f => eval a ^ (fs.prod / f)) ++ [eval a ^ fs.prod] := by
  induction fs generalizing a with
  | nil => rw [cofactorPowers, List.prod_nil, pow_one, List.map_nil, List.nil_append, List.map_cons,
      List.map_nil]
  | cons f fs ih =>
    rw [List.forall_mem_cons] at some
    obtain ⟨positive, later⟩ := some
    have rest : 0 < fs.prod := Nat.pos_of_ne_zero fun zero =>
      absurd (later 0 (List.prod_eq_zero_iff.mp zero)) (Nat.lt_irrefl 0)
    rw [List.prod_cons] at fits ⊢
    have small : fs.prod < 2 ^ fuel := lt_of_le_of_lt (Nat.le_mul_of_pos_left _ positive) fits
    have small' : f < 2 ^ fuel := lt_of_le_of_lt (Nat.le_mul_of_pos_right _ rest) fits
    rw [cofactorPowers, List.map_cons, ih _ later small, fastPow_spec evalMul evalOne a small,
      fastPow_spec evalMul evalOne a small', List.map_cons, Nat.mul_div_cancel_left _ positive,
      List.cons_append, ← pow_mul]
    congr 2
    refine List.map_congr_left fun g member => ?_
    rw [← pow_mul, Nat.mul_div_assoc f (List.dvd_prod member)]

end Powers

/-- **The order of an element** is a product of primes, when the power by the product is one and no
power that leaves out one of them is. -/
theorem orderOf_of_cofactors {M : Type} [Monoid M] {x : M} {primes : List ℕ}
    (prime : ∀ p ∈ primes, p.Prime) (whole : x ^ primes.prod = 1)
    (parts : ∀ p ∈ primes, x ^ (primes.prod / p) ≠ 1) : orderOf x = primes.prod := by
  refine orderOf_eq_of_pow_and_pow_div_prime (Nat.pos_of_ne_zero fun zero => ?_) whole
    fun p isPrime divides => parts p ?_
  · exact Nat.not_prime_zero (prime 0 (List.prod_eq_zero_iff.mp zero))
  · exact mem_list_primes_of_dvd_prod isPrime.prime (fun q member => (prime q member).prime) divides

theorem orderOf_of_check {A M : Type} [DecidableEq A] [Monoid M] {mul : A → A → A} {one : A}
    {eval : A → M} (evalMul : ∀ a b, eval (mul a b) = eval a * eval b)
    (evalOne : ∀ c, eval c = 1 ↔ c = one) {a : A} {fuel : ℕ} {primes : List ℕ}
    (prime : ∀ p ∈ primes, p.Prime) (fits : primes.prod < 2 ^ fuel)
    (check : (cofactorPowers mul one a fuel primes).map (fun c => decide (c = one)) =
      primes.map (fun _ => false) ++ [true]) : orderOf (eval a) = primes.prod := by
  classical
  have powers := cofactorPowers_spec evalMul ((evalOne one).mpr rfl) a
    (fun p member => (prime p member).pos) fits
  have decided : (fun c => decide (c = one)) = (fun y => decide (y = 1)) ∘ eval := by
    funext c
    exact decide_eq_decide.mpr (evalOne c).symm
  rw [decided, ← List.map_map, powers, List.map_append, List.map_map, List.map_singleton] at check
  obtain ⟨parts, whole⟩ := List.append_inj' check rfl
  refine orderOf_of_cofactors prime ?_ fun p member isOne => ?_
  · exact of_decide_eq_true (List.head_eq_of_cons_eq whole)
  · exact absurd (List.map_inj_left.mp parts p member) (by simp [isOne])

end Lib
