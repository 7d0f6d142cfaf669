/-
**Arithmetic on sizes of 64 bits.**

A sum or a product that does not fit, a negative difference and a division by zero are panics. Each
operation returns the number it stands for when it is in range.
-/

import Longfellow.Lib.Exec
import Mathlib.Data.Nat.Log

namespace Lib

variable {ε : Type}

def addSize (a b : Nat) : Exec ε Nat := do
  ensure (a + b < 2 ^ 64) "attempt to add with overflow"
  pure (a + b)

def mulSize (a b : Nat) : Exec ε Nat := do
  ensure (a * b < 2 ^ 64) "attempt to multiply with overflow"
  pure (a * b)

def divSize (a b : Nat) : Exec ε Nat := do
  ensure (b ≠ 0) "attempt to divide by zero"
  pure (a / b)

def divCeilSize (a b : Nat) : Exec ε Nat := do
  ensure (b ≠ 0) "attempt to divide by zero"
  pure (divCeil a b)

/-- The next power of two, and its exponent as the number of its trailing zeros. -/
def nextPowerOfTwoLog (a : Nat) : Exec ε Nat := do
  ensure (2 ^ Nat.clog 2 a < 2 ^ 64) "attempt to add with overflow"
  pure (Nat.log 2 (2 ^ Nat.clog 2 a))

variable {a b : Nat}

theorem addSize_of_lt (fits : a + b < 2 ^ 64) :
    (addSize a b : Exec ε Nat) = .ok (a + b) := by
  rw [addSize, ensure_of fits, ok_bind, pure_eq_ok]

theorem mulSize_of_lt (fits : a * b < 2 ^ 64) :
    (mulSize a b : Exec ε Nat) = .ok (a * b) := by
  rw [mulSize, ensure_of fits, ok_bind, pure_eq_ok]

theorem divSize_of_pos (pos : 0 < b) : (divSize a b : Exec ε Nat) = .ok (a / b) := by
  rw [divSize, ensure_of pos.ne', ok_bind, pure_eq_ok]

theorem divCeilSize_of_pos (pos : 0 < b) :
    (divCeilSize a b : Exec ε Nat) = .ok (divCeil a b) := by
  rw [divCeilSize, ensure_of pos.ne', ok_bind, pure_eq_ok]

theorem nextPowerOfTwoLog_of_le (fits : a ≤ 2 ^ 63) :
    (nextPowerOfTwoLog a : Exec ε Nat) = .ok (Nat.clog 2 a) := by
  have height : Nat.clog 2 a ≤ 63 := (Nat.clog_le_iff_le_pow Nat.one_lt_two).mpr fits
  have small : 2 ^ Nat.clog 2 a < 2 ^ 64 := Nat.pow_lt_pow_right Nat.one_lt_two (by omega)
  rw [nextPowerOfTwoLog, ensure_of small, ok_bind, Nat.log_pow Nat.one_lt_two, pure_eq_ok]

theorem divCeil_le (a : Nat) (pos : 0 < b) : divCeil a b ≤ a := by
  by_contra more
  have last := mul_lt_of_lt_divCeil pos (show a < divCeil a b by omega)
  have grown : a * 1 ≤ a * b := Nat.mul_le_mul_left a pos
  omega

theorem div_lt_divCeil {i : Nat} (pos : 0 < b) (inside : i < a) : i / b < divCeil a b := by
  have rows := le_divCeil_mul a pos
  exact (Nat.div_lt_iff_lt_mul pos).mpr (by omega)

end Lib
