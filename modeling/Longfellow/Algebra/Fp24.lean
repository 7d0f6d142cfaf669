/-
**The field of 24 bits** (`core/algebra/src/fp24.rs`).

The prime `q = 8380417` is shared by the compiler and the runtime. An element is a number below `q`,
so that sums stay below `2^32` and products below `2^64`.

* `addBase`, `subBase`, `mulBase`, `halfBase` — the operations modulo `q`.
-/

import Longfellow.Lib.BinaryGcd
import Longfellow.Lib.Exec
import Mathlib.Algebra.Field.ZMod
import Mathlib.Tactic.NormNum.Prime

namespace Longfellow.Fp24

open Lib

variable {ε : Type}

def Q : ℕ := 8380417

def addBase (a b : ℕ) : ℕ :=
  let sum := a + b
  if sum ≥ Q then sum - Q else sum

def subBase (a b : ℕ) : ℕ := if a ≥ b then a - b else a + Q - b

def mulBase (a b : ℕ) : ℕ := a * b % Q

def halfBase (a : ℕ) : ℕ := if a % 2 = 0 then a / 2 else a / 2 + (Q + 1) / 2

/-- The variables of the inversion loop. -/
structure InvertState where
  a : ℕ
  b : ℕ
  u : ℕ
  v : ℕ

/-- One round of the loop. -/
def invertStep (s : InvertState) : InvertState :=
  if s.a % 2 = 0 then { s with a := s.a / 2, u := halfBase s.u }
  else
    let s := if s.a < s.b then { a := s.b, b := s.a, u := s.v, v := s.u } else s
    { s with a := (s.a - s.b) / 2, u := halfBase (subBase s.u s.v) }

/-- The loop, for at most `fuel` rounds. -/
def invertLoop : ℕ → InvertState → Exec ε ℕ
  | 0, s => if s.a ≠ 0 then abort "out of fuel" else pure s.v
  | fuel + 1, s => if s.a ≠ 0 then invertLoop fuel (invertStep s) else pure s.v

def invertBase (value : ℕ) : Exec ε ℕ := do
  ensure (value ≠ 0) "cannot invert zero"
  invertLoop 48 { a := value, b := Q, u := 1, v := 0 }

/-! ### The operations modulo `q` -/

instance : Fact (Nat.Prime Q) := ⟨by norm_num [Q]⟩

theorem two_ne_zero : (2 : ZMod Q) ≠ 0 := by decide

variable {a b : ℕ}

theorem subBase_spec (left : a < Q) (right : b < Q) :
    subBase a b < Q ∧ (subBase a b : ZMod Q) = a - b := by
  rw [subBase]
  by_cases ordered : a ≥ b
  · rw [if_pos ordered]
    exact ⟨by omega, Nat.cast_sub ordered⟩
  · rw [if_neg ordered]
    refine ⟨by omega, ?_⟩
    rw [Nat.cast_sub (by omega), Nat.cast_add, ZMod.natCast_self, add_zero]

theorem mulBase_spec (a b : ℕ) : mulBase a b < Q ∧ (mulBase a b : ZMod Q) = a * b :=
  ⟨Nat.mod_lt _ (by decide), by rw [mulBase, ZMod.natCast_mod, Nat.cast_mul]⟩

theorem halfBase_spec (small : a < Q) : halfBase a < Q ∧ (halfBase a : ZMod Q) = a / 2 := by
  have prime : Q = 8380417 := rfl
  have double : halfBase a < Q ∧ (halfBase a * 2 = a ∨ halfBase a * 2 = a + Q) := by
    rw [halfBase]
    split_ifs <;> omega
  refine ⟨double.1, ?_⟩
  rw [eq_div_iff two_ne_zero, ← Nat.cast_two, ← Nat.cast_mul]
  rcases double.2 with equal | equal
  · rw [equal]
  · rw [equal, Nat.cast_add, ZMod.natCast_self, add_zero]

theorem natCast_inj (left : a < Q) (right : b < Q) (same : (a : ZMod Q) = b) : a = b := by
  rw [ZMod.natCast_eq_natCast_iff', Nat.mod_eq_of_lt left, Nat.mod_eq_of_lt right] at same
  exact same

/-! ### Inversion -/

/-- The variables stand for the numbers and their cofactors. -/
structure Represents (s : InvertState) (t : BinaryGcd.State (ZMod Q)) : Prop where
  a : s.a = t.a
  b : s.b = t.b
  uSmall : s.u < Q
  u : (s.u : ZMod Q) = t.u
  vSmall : s.v < Q
  v : (s.v : ZMod Q) = t.v

variable {s : InvertState} {t : BinaryGcd.State (ZMod Q)}

theorem Represents.order (represents : Represents s t) :
    Represents (if s.a < s.b then { a := s.b, b := s.a, u := s.v, v := s.u } else s)
      (BinaryGcd.order t) := by
  rw [BinaryGcd.order, ← represents.a, ← represents.b]
  split_ifs
  · exact ⟨rfl, rfl, represents.vSmall, represents.v, represents.uSmall, represents.u⟩
  · exact represents

/-- **A round.** -/
theorem invertStep_represents (represents : Represents s t) :
    Represents (invertStep s) (BinaryGcd.step t) := by
  rw [invertStep, BinaryGcd.step, ← represents.a]
  by_cases even : s.a % 2 = 0
  · rw [if_pos even, if_pos even]
    obtain ⟨small, half⟩ := halfBase_spec represents.uSmall
    exact ⟨rfl, represents.b, small, half.trans (by rw [represents.u]), represents.vSmall,
      represents.v⟩
  · rw [if_neg even, if_neg even]
    have ordered := represents.order
    generalize (if s.a < s.b then (⟨s.b, s.a, s.v, s.u⟩ : InvertState) else s) = s' at ordered
    obtain ⟨below, difference⟩ := subBase_spec ordered.uSmall ordered.vSmall
    obtain ⟨small, half⟩ := halfBase_spec below
    refine ⟨?_, ordered.b, small, ?_, ordered.vSmall, ordered.v⟩
    · rw [← ordered.a, ← ordered.b]
    · rw [half, difference, ordered.u, ordered.v]

/-- **The loop ends**, when the product of the numbers is below `2 ^ fuel`. -/
theorem invertLoop_returns {x : ZMod Q} {fuel : ℕ} (represents : Represents s t)
    (inverts : BinaryGcd.Inverts x t) (bound : t.a * t.b < 2 ^ fuel) :
    ∃ c, invertLoop fuel s = (.ok c : Exec ε ℕ) ∧ c < Q ∧ (c : ZMod Q) * x = 1 := by
  induction fuel generalizing s t with
  | zero =>
    have zero := inverts.eq_zero_of_product bound
    refine ⟨s.v, ?_, represents.vSmall, ?_⟩
    · rw [invertLoop, if_neg (not_not_intro (represents.a.trans zero)), pure_eq_ok]
    · rw [represents.v, inverts.done zero]
  | succ fuel ih =>
    rw [invertLoop]
    by_cases zero : s.a = 0
    · refine ⟨s.v, ?_, represents.vSmall, ?_⟩
      · rw [if_neg (not_not_intro zero), pure_eq_ok]
      · rw [represents.v, inverts.done (represents.a.symm.trans zero)]
    · obtain ⟨kept, halved⟩ := inverts.step two_ne_zero
      rw [if_pos zero]
      refine ih (invertStep_represents represents) kept ?_
      rw [pow_succ'] at bound
      omega

/-- **The inverse of an element.** -/
theorem invertBase_returns {value : ℕ} (nonzero : value ≠ 0) (small : value < Q) :
    ∃ c, invertBase value = (.ok c : Exec ε ℕ) ∧ c < Q ∧ (c : ZMod Q) * value = 1 := by
  have one : 1 < Q := by decide
  have start : Represents ⟨value, Q, 1, 0⟩ ⟨value, Q, 1, 0⟩ :=
    ⟨rfl, rfl, one, Nat.cast_one, Nat.zero_lt_of_lt one, Nat.cast_zero⟩
  have inverts : BinaryGcd.Inverts (value : ZMod Q) ⟨value, Q, 1, 0⟩ := by
    refine ⟨?_, show Q % 2 = 1 by decide, one_mul _, ?_⟩
    · exact (Nat.coprime_of_lt_prime nonzero small (Fact.out : Nat.Prime Q)).symm
    · rw [zero_mul, ZMod.natCast_self]
  have bound : value * Q < 2 ^ 48 := by
    rw [Q] at small ⊢
    omega
  rw [invertBase, ensure_of nonzero, ok_bind]
  exact invertLoop_returns start inverts bound

theorem invertBase_mul {a : ℕ} (nonzero : a ≠ 0) (small : a < Q) :
    ∃ c, invertBase a = (.ok c : Exec ε ℕ) ∧ c < Q ∧ mulBase c a = 1 := by
  obtain ⟨c, ran, below, inverse⟩ := invertBase_returns (ε := ε) nonzero small
  refine ⟨c, ran, below, natCast_inj (mulBase_spec c a).1 (by decide) ?_⟩
  rw [(mulBase_spec c a).2, inverse, Nat.cast_one]

end Longfellow.Fp24
