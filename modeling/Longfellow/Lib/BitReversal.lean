/-
**Numbers with their bits reversed.**

* `reversed_reversed` — reversing twice is no change.
-/

import Mathlib.Data.Nat.Bitwise
import Mathlib.Tactic.Ring

namespace Lib

/-- The number with the low `l` bits of another, in reversed order. -/
def reversed : ℕ → ℕ → ℕ
  | 0, _ => 0
  | l + 1, i => i % 2 * 2 ^ l + reversed l (i / 2)

variable {l : ℕ}

theorem xor_two_pow_add {j : ℕ} (small : j < 2 ^ l) : 2 ^ l + j = 2 ^ l ^^^ j := by
  have join : 2 ^ l + j = 2 ^ l ||| j := by simpa using Nat.two_pow_add_eq_or_of_lt small 1
  rw [join]
  refine Nat.eq_of_testBit_eq fun i => ?_
  rw [Nat.testBit_or, Nat.testBit_xor, Nat.testBit_two_pow]
  by_cases same : l = i
  · subst same
    simp [Nat.testBit_lt_two_pow small]
  · simp [same]

theorem reversed_zero (l : ℕ) : reversed l 0 = 0 := by
  induction l with
  | zero => rfl
  | succ l ih => rw [reversed, Nat.zero_mod, Nat.zero_mul, Nat.zero_div, ih]

theorem reversed_lt (l i : ℕ) : reversed l i < 2 ^ l := by
  induction l generalizing i with
  | zero => simp [reversed]
  | succ l ih =>
    have low := ih (i / 2)
    rw [reversed, pow_succ]
    obtain even | odd := Nat.mod_two_eq_zero_or_one i
    · rw [even]
      omega
    · rw [odd]
      omega

/-- **The reversal by parts.** -/
theorem reversed_add (k : ℕ) (high : ℕ) {low : ℕ} (small : low < 2 ^ l) :
    reversed (k + l) (high * 2 ^ l + low) = reversed l low * 2 ^ k + reversed k high := by
  induction l generalizing low with
  | zero =>
    obtain rfl : low = 0 := by simpa using small
    simp [reversed]
  | succ l ih =>
    rw [pow_succ] at small
    have double : high * 2 ^ (l + 1) = 2 * (high * 2 ^ l) := by ring
    have half : (high * 2 ^ (l + 1) + low) / 2 = high * 2 ^ l + low / 2 := by omega
    have parity : (high * 2 ^ (l + 1) + low) % 2 = low % 2 := by omega
    rw [← Nat.add_assoc, reversed, half, parity, ih (by omega), reversed, pow_add]
    ring

/-- **Twice.** -/
theorem reversed_reversed {i : ℕ} (small : i < 2 ^ l) : reversed l (reversed l i) = i := by
  induction l generalizing i with
  | zero =>
    obtain rfl : i = 0 := by simpa using small
    rfl
  | succ l ih =>
    rw [pow_succ] at small
    have one : reversed 1 (i % 2) = i % 2 := by
      rw [reversed, reversed, pow_zero, Nat.mul_one, Nat.add_zero, Nat.mod_mod]
    have parts : reversed (l + 1) i = i % 2 * 2 ^ l + reversed l (i / 2) := rfl
    rw [parts, Nat.add_comm l 1, reversed_add 1 _ (reversed_lt l _), ih (by omega), one]
    omega

theorem reversed_even_succ {i : ℕ} (even : i % 2 = 0) :
    reversed (l + 1) i = reversed l (i / 2) ∧
      reversed (l + 1) (i + 1) = 2 ^ l + reversed l (i / 2) := by
  have half : (i + 1) / 2 = i / 2 := by omega
  have odd : (i + 1) % 2 = 1 := by omega
  rw [reversed, reversed, even, odd, half, Nat.zero_mul, Nat.zero_add, Nat.one_mul]
  exact ⟨rfl, rfl⟩

/-- The next number of an odd one clears the highest bit of the reversal, and goes on with the
others. -/
theorem reversed_odd_succ {i : ℕ} (odd : i % 2 = 1) :
    reversed (l + 1) i = 2 ^ l + reversed l (i / 2) ∧
      reversed (l + 1) (i + 1) = reversed l (i / 2 + 1) := by
  have half : (i + 1) / 2 = i / 2 + 1 := by omega
  have even : (i + 1) % 2 = 0 := by omega
  rw [reversed, reversed, even, odd, half, Nat.zero_mul, Nat.zero_add, Nat.one_mul]
  exact ⟨rfl, rfl⟩

end Lib
