/-
**The binary greatest common divisor with cofactors.**

Two numbers, the second one odd, each with a cofactor: the element of a field that gives the number
when it is multiplied by some `x`. A round halves the first number if it is even, and else the
difference of the two.

* `Inverts.step` — **a round keeps the cofactors and halves the product of the numbers**.
-/

import Mathlib.Data.Nat.GCD.Basic
import Mathlib.Tactic.LinearCombination

namespace Lib.BinaryGcd

variable {k : Type} [Field k]

/-- The numeral two of a ring. -/
local instance two_atLeastTwo : Nat.AtLeastTwo 2 := inferInstance

/-- The numbers and their cofactors. -/
structure State (k : Type) where
  a : ℕ
  b : ℕ
  u : k
  v : k

/-- The larger number first. -/
def order (s : State k) : State k := if s.a < s.b then ⟨s.b, s.a, s.v, s.u⟩ else s

/-- One round. -/
def step (s : State k) : State k :=
  if s.a % 2 = 0 then ⟨s.a / 2, s.b, s.u / 2, s.v⟩
  else ⟨((order s).a - (order s).b) / 2, (order s).b, ((order s).u - (order s).v) / 2, (order s).v⟩

/-- The numbers have no common divisor, and their cofactors are their quotients by `x`. -/
structure Inverts (x : k) (s : State k) : Prop where
  coprime : Nat.Coprime s.a s.b
  odd : s.b % 2 = 1
  u : s.u * x = s.a
  v : s.v * x = s.b

variable {x : k} {s : State k}

theorem Inverts.half (two : (2 : k) ≠ 0) (inverts : Inverts x s) {c : ℕ} {w : k}
    (coprime : Nat.Coprime c s.b) (even : c % 2 = 0) (cofactor : w * x = c) :
    Inverts x ⟨c / 2, s.b, w / 2, s.v⟩ := by
  have halves : c = 2 * (c / 2) := by omega
  refine ⟨coprime.coprime_dvd_left (Dvd.intro_left 2 halves.symm), inverts.odd, ?_, inverts.v⟩
  have double : ((2 * (c / 2) : ℕ) : k) = c := congrArg Nat.cast halves.symm
  rw [Nat.cast_mul, Nat.cast_ofNat, ← cofactor] at double
  rw [div_mul_eq_mul_div, ← double, mul_div_cancel_left₀ _ two]

theorem Inverts.order (inverts : Inverts x s) (odd : s.a % 2 = 1) :
    Inverts x (order s) ∧ (order s).b ≤ (order s).a ∧ (order s).a % 2 = 1 ∧
      (order s).a * (order s).b = s.a * s.b := by
  rw [BinaryGcd.order]
  by_cases less : s.a < s.b
  · rw [if_pos less]
    exact ⟨⟨inverts.coprime.symm, odd, inverts.v, inverts.u⟩, less.le, inverts.odd,
      Nat.mul_comm _ _⟩
  · rw [if_neg less]
    exact ⟨inverts, Nat.le_of_not_lt less, odd, rfl⟩

/-- **A round.** -/
theorem Inverts.step (two : (2 : k) ≠ 0) (inverts : Inverts x s) :
    Inverts x (step s) ∧ 2 * ((step s).a * (step s).b) ≤ s.a * s.b := by
  rw [BinaryGcd.step]
  by_cases even : s.a % 2 = 0
  · rw [if_pos even]
    refine ⟨inverts.half two inverts.coprime even inverts.u, ?_⟩
    rw [← Nat.mul_assoc]
    exact Nat.mul_le_mul_right _ (Nat.mul_div_le s.a 2)
  · rw [if_neg even]
    obtain ⟨kept, ordered, odd, same⟩ := inverts.order (by omega)
    have oddB := kept.odd
    refine ⟨kept.half two ((Nat.coprime_sub_self_left ordered).mpr kept.coprime) (by omega) ?_, ?_⟩
    · rw [Nat.cast_sub ordered, ← kept.u, ← kept.v, sub_mul]
    · rw [← same, ← Nat.mul_assoc]
      exact Nat.mul_le_mul_right _ ((Nat.mul_div_le _ 2).trans (Nat.sub_le _ _))

/-- **The end.** -/
theorem Inverts.done (inverts : Inverts x s) (zero : s.a = 0) : s.v * x = 1 := by
  have one := inverts.coprime
  rw [zero, Nat.coprime_zero_left] at one
  rw [inverts.v, one, Nat.cast_one]

theorem Inverts.eq_zero_of_product (inverts : Inverts x s) (small : s.a * s.b < 1) : s.a = 0 := by
  have odd := inverts.odd
  rw [Nat.lt_one_iff, Nat.mul_eq_zero] at small
  omega

end Lib.BinaryGcd
