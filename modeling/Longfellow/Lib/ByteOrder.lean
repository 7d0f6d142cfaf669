/-
**Numbers of bytes, and their order.**

* `beValue_le_iff` — words of one length are in the order of their numbers, the highest byte first;
* `natBits_flatMap` — the bits of bytes, one behind the other, are those of their number.
-/

import Mathlib.Data.Nat.Bitwise
import Longfellow.Lib.BitList
import Longfellow.Lib.Cbor

namespace Lib

theorem leValue_append (xs ys : Bytes) :
    leValue (xs ++ ys) = leValue xs + 256 ^ xs.length * leValue ys := by
  induction xs with
  | nil => simp [leValue]
  | cons x xs ih =>
    rw [List.cons_append, leValue, leValue, ih, List.length_cons]
    ring

theorem beValue_cons (x : UInt8) (xs : Bytes) :
    beValue (x :: xs) = x.toNat * 256 ^ xs.length + beValue xs := by
  rw [beValue, List.reverse_cons, leValue_append, List.length_reverse, leValue, leValue, beValue]
  ring

/-- **Words of one length are in the order of their numbers.** -/
theorem beValue_lt_iff {xs ys : Bytes} (size : xs.length = ys.length) :
    beValue xs < beValue ys ↔ xs < ys := by
  induction xs generalizing ys with
  | nil =>
    obtain rfl := List.length_eq_zero_iff.mp size.symm
    simp
  | cons x xs ih =>
    obtain ⟨y, ys, rfl⟩ := List.exists_cons_of_length_eq_add_one size.symm
    have rest : xs.length = ys.length := Nat.succ.inj size
    have small := Cbor.beValue_lt xs
    have small' := Cbor.beValue_lt ys
    rw [beValue_cons, beValue_cons, List.cons_lt_cons_iff, ← ih rest, ← rest,
      UInt8.lt_iff_toNat_lt, ← UInt8.toNat_inj]
    rw [← rest] at small'
    generalize 256 ^ xs.length = weight at small small'
    rcases Nat.lt_trichotomy x.toNat y.toNat with below | same | above
    · have step := Nat.mul_le_mul_right weight (Nat.succ_le_of_lt below)
      rw [Nat.succ_mul] at step
      exact iff_of_true (by omega) (.inl below)
    · rw [same]
      constructor
      · intro less
        exact .inr ⟨rfl, by omega⟩
      · rintro (less | ⟨-, less⟩)
        · omega
        · omega
    · have step := Nat.mul_le_mul_right weight (Nat.succ_le_of_lt above)
      rw [Nat.succ_mul] at step
      refine iff_of_false (by omega) ?_
      rintro (less | ⟨same, -⟩)
      · omega
      · omega

theorem beValue_le_iff {xs ys : Bytes} (size : xs.length = ys.length) :
    beValue xs ≤ beValue ys ↔ xs ≤ ys := by
  rw [← Nat.not_lt, beValue_lt_iff size.symm, List.not_lt]

/-- **A bit of a number is a bit of one of its bytes.** -/
theorem testBit_leValue (bytes : Bytes) (i : ℕ) :
    (leValue bytes).testBit i = (bytes.getD (i / 8) 0).toBitVec.getLsbD (i % 8) := by
  induction bytes generalizing i with
  | nil => simp [leValue]
  | cons byte bytes ih =>
    have low := byte.toNat_lt
    rw [leValue, Nat.add_comm, show 256 = 2 ^ 8 from rfl]
    by_cases first : i < 8
    · rw [Nat.testBit_two_pow_mul_add _ (by omega), if_pos first, Nat.div_eq_of_lt first,
        Nat.mod_eq_of_lt first, List.getD_cons_zero]
      rfl
    · obtain ⟨k, rfl⟩ : ∃ k, i = k + 8 := ⟨i - 8, by omega⟩
      rw [Nat.testBit_two_pow_mul_add _ (by omega), if_neg first, Nat.add_sub_cancel, ih,
        Nat.add_div_right k (by decide), Nat.add_mod_right, List.getD_cons_succ]

theorem natBits_append (xs ys : List Bool) :
    natBits (xs ++ ys) = natBits xs + 2 ^ xs.length * natBits ys := by
  induction xs with
  | nil => simp [natBits]
  | cons x xs ih =>
    rw [List.cons_append, natBits_cons, natBits_cons, ih, List.length_cons]
    ring

theorem natBits_flatMap {bits : UInt8 → List Bool} (size : ∀ b, (bits b).length = 8)
    (value : ∀ b, natBits (bits b) = b.toNat) (bytes : Bytes) :
    natBits (bytes.flatMap bits) = leValue bytes := by
  induction bytes with
  | nil => simp [natBits, leValue]
  | cons b bytes ih => rw [List.flatMap_cons, natBits_append, size, value, ih, leValue]; rfl

end Lib
