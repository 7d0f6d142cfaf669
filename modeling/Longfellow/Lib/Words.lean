/-
**Numbers in words.**

A list of words of `n` bits, least significant first, and the number it stands for.

* `addWords_spec`, `subWords_spec`, `carryWords_spec` — **sums and differences with a carry**.
-/

import Mathlib.Tactic.LinearCombination
import Mathlib.Tactic.Positivity
import Mathlib.Tactic.Ring

namespace Lib

variable {n : ℕ}

/-- The number that words stand for, least significant word first. -/
def wordsVal : List (BitVec n) → ℕ
  | [] => 0
  | x :: xs => x.toNat + 2 ^ n * wordsVal xs

@[simp] theorem wordsVal_nil : wordsVal ([] : List (BitVec n)) = 0 := rfl

@[simp] theorem wordsVal_cons (x : BitVec n) (xs : List (BitVec n)) :
    wordsVal (x :: xs) = x.toNat + 2 ^ n * wordsVal xs := rfl

theorem wordsVal_append (xs ys : List (BitVec n)) :
    wordsVal (xs ++ ys) = wordsVal xs + (2 ^ n) ^ xs.length * wordsVal ys := by
  induction xs with
  | nil => simp
  | cons x xs ih =>
    rw [List.cons_append, wordsVal_cons, wordsVal_cons, ih, List.length_cons, pow_succ]
    ring

theorem wordsVal_lt (xs : List (BitVec n)) : wordsVal xs < (2 ^ n) ^ xs.length := by
  induction xs with
  | nil => simp
  | cons x xs ih =>
    rw [wordsVal_cons, List.length_cons, pow_succ']
    have word := x.isLt
    have rest := Nat.mul_le_mul_left (2 ^ n) (Nat.succ_le_of_lt ih)
    rw [Nat.mul_succ] at rest
    omega

@[simp] theorem wordsVal_replicate_zero (k : ℕ) :
    wordsVal (List.replicate k (0#n)) = 0 := by
  induction k with
  | zero => rfl
  | succ k ih => rw [List.replicate_succ, wordsVal_cons, ih, BitVec.toNat_zero, mul_zero, add_zero]

section

variable {k : ℕ} (xs : List (BitVec n)) (bound : k ≤ xs.length)
include xs bound

/-- The first `k` words and the others. -/
theorem wordsVal_split :
    wordsVal xs = wordsVal (xs.take k) + (2 ^ n) ^ k * wordsVal (xs.drop k) := by
  have parts := wordsVal_append (xs.take k) (xs.drop k)
  rwa [List.take_append_drop, List.length_take, min_eq_left bound] at parts

theorem wordsVal_take :
    wordsVal (xs.take k) = wordsVal xs % (2 ^ n) ^ k := by
  have low := wordsVal_lt (xs.take k)
  rw [List.length_take, min_eq_left bound] at low
  rw [wordsVal_split xs bound, Nat.add_mul_mod_self_left, Nat.mod_eq_of_lt low]

theorem wordsVal_drop :
    wordsVal (xs.drop k) = wordsVal xs / (2 ^ n) ^ k := by
  have low := wordsVal_lt (xs.take k)
  rw [List.length_take, min_eq_left bound] at low
  rw [wordsVal_split xs bound, Nat.add_mul_div_left _ _ (by positivity), Nat.div_eq_of_lt low,
    zero_add]

end

variable {xs ys : List (BitVec n)}

theorem wordsVal_injective (size : xs.length = ys.length) (same : wordsVal xs = wordsVal ys) :
    xs = ys := by
  induction xs generalizing ys with
  | nil => exact (List.eq_nil_of_length_eq_zero size.symm).symm
  | cons x xs ih => cases ys with
    | nil => simp at size
    | cons y ys =>
      rw [wordsVal_cons, wordsVal_cons] at same
      have first : x.toNat = y.toNat := by
        have residue := congrArg (· % 2 ^ n) same
        simpa [Nat.mod_eq_of_lt x.isLt, Nat.mod_eq_of_lt y.isLt] using residue
      have rest : wordsVal xs = wordsVal ys := by
        rw [first] at same
        exact Nat.eq_of_mul_eq_mul_left (by positivity) (Nat.add_left_cancel same)
      rw [BitVec.eq_of_toNat_eq first, ih (by simpa using size) rest]

theorem wordsVal_eq_zero :
    wordsVal xs = 0 ↔ xs = List.replicate xs.length 0#n := by
  constructor
  · intro zero
    exact wordsVal_injective (by simp) (zero.trans (wordsVal_replicate_zero _).symm)
  · intro zeros
    rw [zeros, wordsVal_replicate_zero]

/-! ### Sums and differences -/

/-- The sum of two words and a carry, and the carry out. -/
def carryingAdd (x y : BitVec n) (carry : Bool) : BitVec n × Bool :=
  (BitVec.ofNat n (x.toNat + y.toNat + carry.toNat),
    decide (2 ^ n ≤ x.toNat + y.toNat + carry.toNat))

/-- The difference of two words and a borrow, and the borrow out. -/
def borrowingSub (x y : BitVec n) (borrow : Bool) : BitVec n × Bool :=
  (BitVec.ofNat n (2 ^ n + x.toNat - (y.toNat + borrow.toNat)),
    decide (x.toNat < y.toNat + borrow.toNat))

theorem carryingAdd_spec (x y : BitVec n) (carry : Bool) :
    (carryingAdd x y carry).1.toNat + 2 ^ n * (carryingAdd x y carry).2.toNat =
      x.toNat + y.toNat + carry.toNat := by
  have left := x.isLt
  have right := y.isLt
  have bit := Bool.toNat_le carry
  simp only [carryingAdd, BitVec.toNat_ofNat]
  by_cases exceeds : 2 ^ n ≤ x.toNat + y.toNat + carry.toNat
  · rw [decide_eq_true exceeds, Bool.toNat_true, Nat.mul_one, Nat.mod_eq_sub_mod exceeds,
      Nat.mod_eq_of_lt (by omega)]
    omega
  · rw [decide_eq_false exceeds, Bool.toNat_false, Nat.mul_zero, Nat.mod_eq_of_lt (by omega)]
    omega

theorem borrowingSub_spec (x y : BitVec n) (borrow : Bool) :
    (borrowingSub x y borrow).1.toNat + y.toNat + borrow.toNat =
      x.toNat + 2 ^ n * (borrowingSub x y borrow).2.toNat := by
  have left := x.isLt
  have right := y.isLt
  have bit := Bool.toNat_le borrow
  simp only [borrowingSub, BitVec.toNat_ofNat]
  by_cases under : x.toNat < y.toNat + borrow.toNat
  · rw [decide_eq_true under, Bool.toNat_true, Nat.mul_one, Nat.mod_eq_of_lt (by omega)]
    omega
  · rw [decide_eq_false under, Bool.toNat_false, Nat.mul_zero, Nat.mod_eq_sub_mod (by omega),
      Nat.mod_eq_of_lt (by omega)]
    omega

/-- Add words of the same number, with a carry. -/
def addWords : List (BitVec n) → List (BitVec n) → Bool → List (BitVec n) × Bool
  | x :: xs, y :: ys, carry =>
    let (sum, carry) := carryingAdd x y carry
    let (rest, carry) := addWords xs ys carry
    (sum :: rest, carry)
  | _, _, carry => ([], carry)

/-- Subtract words of the same number, with a borrow. -/
def subWords : List (BitVec n) → List (BitVec n) → Bool → List (BitVec n) × Bool
  | x :: xs, y :: ys, borrow =>
    let (diff, borrow) := borrowingSub x y borrow
    let (rest, borrow) := subWords xs ys borrow
    (diff :: rest, borrow)
  | _, _, borrow => ([], borrow)

/-- Add a carry to words. -/
def carryWords : List (BitVec n) → Bool → List (BitVec n) × Bool
  | x :: xs, carry =>
    let (sum, carry) := carryingAdd x 0#n carry
    let (rest, carry) := carryWords xs carry
    (sum :: rest, carry)
  | [], carry => ([], carry)

theorem addWords_spec (carry : Bool) (size : xs.length = ys.length) :
    (addWords xs ys carry).1.length = xs.length ∧
      wordsVal (addWords xs ys carry).1 + (2 ^ n) ^ xs.length * (addWords xs ys carry).2.toNat =
        wordsVal xs + wordsVal ys + carry.toNat := by
  induction xs generalizing ys carry with
  | nil =>
    obtain rfl := List.eq_nil_of_length_eq_zero size.symm
    simp [addWords]
  | cons x xs ih => cases ys with
    | nil => simp at size
    | cons y ys =>
      obtain ⟨length, rest⟩ := ih (carryingAdd x y carry).2 (by simpa using size)
      have first := carryingAdd_spec x y carry
      refine ⟨by simp [addWords, length], ?_⟩
      simp only [addWords, wordsVal_cons, List.length_cons, pow_succ']
      linear_combination first + 2 ^ n * rest

theorem subWords_spec (borrow : Bool) (size : xs.length = ys.length) :
    (subWords xs ys borrow).1.length = xs.length ∧
      wordsVal (subWords xs ys borrow).1 + wordsVal ys + borrow.toNat =
        wordsVal xs + (2 ^ n) ^ xs.length * (subWords xs ys borrow).2.toNat := by
  induction xs generalizing ys borrow with
  | nil =>
    obtain rfl := List.eq_nil_of_length_eq_zero size.symm
    simp [subWords]
  | cons x xs ih => cases ys with
    | nil => simp at size
    | cons y ys =>
      obtain ⟨length, rest⟩ := ih (borrowingSub x y borrow).2 (by simpa using size)
      have first := borrowingSub_spec x y borrow
      refine ⟨by simp [subWords, length], ?_⟩
      simp only [subWords, wordsVal_cons, List.length_cons, pow_succ']
      linear_combination first + 2 ^ n * rest

theorem carryWords_spec (xs : List (BitVec n)) (carry : Bool) :
    (carryWords xs carry).1.length = xs.length ∧
      wordsVal (carryWords xs carry).1 + (2 ^ n) ^ xs.length * (carryWords xs carry).2.toNat =
        wordsVal xs + carry.toNat := by
  induction xs generalizing carry with
  | nil => simp [carryWords]
  | cons x xs ih =>
    obtain ⟨length, rest⟩ := ih (carryingAdd x 0#n carry).2
    have first := carryingAdd_spec x 0#n carry
    rw [BitVec.toNat_zero, Nat.add_zero] at first
    refine ⟨by simp [carryWords, length], ?_⟩
    simp only [carryWords, wordsVal_cons, List.length_cons, pow_succ']
    linear_combination first + 2 ^ n * rest

end Lib
