/-
**The generator of the binary field** (`compile/algebra/src/gf2_128.rs`).

The class of `X` generates all elements but zero: its order is computed from its powers, modulo the
primes of `2 ^ 128 - 1`.

* `orderOf_generator` — **the order of the generator**.
-/

import Longfellow.Gadget.Fields
import Longfellow.Lib.CarryLess
import Mathlib.NumberTheory.LucasPrimality
import Mathlib.Tactic.NormNum.Prime
import Mathlib.Tactic.ReduceModChar

namespace Longfellow.Gadget.Gf2128Elt

open Lib Gf2128 Polynomial

def generator : Gf2128Elt := ⟨2⟩

/-! ### The primes of the order -/

def primesOfOrder : List ℕ := [67280421310721, 6700417, 274177, 65537, 641, 257, 17, 5, 3]

theorem prod_primesOfOrder : primesOfOrder.prod = 2 ^ 128 - 1 := by decide +kernel

theorem prime_largest : Nat.Prime 67280421310721 := by
  have factors : 67280421310721 - 1 = [2, 2, 2, 2, 2, 2, 2, 2, 5, 47, 373, 2998279].prod := by
    norm_num
  have primes : ∀ q ∈ [2, 2, 2, 2, 2, 2, 2, 2, 5, 47, 373, 2998279], Prime q := by
    simp only [List.forall_mem_cons, ← Nat.prime_iff]
    norm_num
  apply lucas_primality 67280421310721 3
  · norm_num
    reduce_mod_char
  · intro q prime divides
    rw [factors] at divides
    have member := mem_list_primes_of_dvd_prod prime.prime primes divides
    simp only [List.mem_cons, List.not_mem_nil, or_false] at member
    rcases member with rfl | rfl | rfl | rfl | rfl | rfl | rfl | rfl | rfl | rfl | rfl | rfl <;>
      norm_num <;> reduce_mod_char <;> decide

theorem prime_of_order : ∀ p ∈ primesOfOrder, p.Prime := by
  rw [primesOfOrder, List.forall_mem_cons]
  exact ⟨prime_largest, by norm_num⟩

/-! ### The order -/

/-- The product, on numbers. -/
def product (a b : Gf2128) : Gf2128 :=
  BitVec.ofNat 128 (reduce 128 8 0x87 (reduce 128 8 0x87 (clmul a.toNat 128 b.toNat)))

theorem natPoly_tail : natPoly 0x87 = X ^ 7 + X ^ 2 + X + 1 := by
  have bits : natPoly 0x87 = natPoly (2 ^ 7 ^^^ 2 ^ 2 ^^^ 2 ^ 1 ^^^ 2 ^ 0) :=
    congrArg natPoly (by decide)
  have outer := natPoly_xor (2 ^ 7 ^^^ 2 ^ 2 ^^^ 2 ^ 1) (2 ^ 0)
  have middle := natPoly_xor (2 ^ 7 ^^^ 2 ^ 2) (2 ^ 1)
  have inner := natPoly_xor (2 ^ 7) (2 ^ 2)
  rw [bits, outer, middle, inner, natPoly_two_pow 7, natPoly_two_pow 2, natPoly_two_pow 1,
    natPoly_two_pow 0, pow_one, pow_zero]

theorem tail_eq : tail = natPoly 0x87 := natPoly_tail.symm

theorem classOf_reduce (r : ℕ) : classOf (natPoly (reduce 128 8 0x87 r)) = classOf (natPoly r) := by
  have zero : classOf modulus = 0 := AdjoinRoot.mk_self
  have multiple := natPoly_reduce (w := 128) (n := 8) (t := 0x87) (by decide) r
  rw [← tail_eq, ← modulus_eq] at multiple
  rw [multiple, classOf_add, classOf_mul, zero, zero_mul, add_zero]

theorem value_product (a b : Gf2128) : value (product a b) = value a * value b := by
  have raw := clmul_lt a.isLt 128 b.toNat
  have once : reduce 128 8 0x87 (clmul a.toNat 128 b.toNat) < 2 ^ (128 + 8) :=
    reduce_lt 0x87 (by decide) (by decide) raw
  have twice := reduce_lt (n := 8) (m := 128) 0x87 (by decide) (by decide) once
  rw [value, product, toPoly_eq_natPoly, BitVec.toNat_ofNat, Nat.mod_eq_of_lt twice,
    classOf_reduce, classOf_reduce, natPoly_clmul _ b.isLt, classOf_mul, ← toPoly_eq_natPoly,
    ← toPoly_eq_natPoly]
  rfl

theorem value_eq_one (c : Gf2128) : value c = 1 ↔ c = 1 := by
  have one : value (1 : Gf2128) = 1 := image_one
  rw [← one]
  exact value_injective.eq_iff

theorem powers_of_generator :
    (cofactorPowers product 1 (2 : Gf2128) 128 primesOfOrder).map (fun c => decide (c = 1)) =
      primesOfOrder.map (fun _ => false) ++ [true] := by
  decide +kernel

/-- **The order of the generator.** -/
theorem orderOf_generator : orderOf generator = 2 ^ 128 - 1 := by
  have order : orderOf (value (2 : Gf2128)) = 2 ^ 128 - 1 := by
    rw [orderOf_of_check value_product value_eq_one prime_of_order
      (by rw [prod_primesOfOrder]; decide) powers_of_generator, prod_primesOfOrder]
  rw [← order]
  exact (orderOf_injective (imageHom : Gf2128Elt →* AdjoinRoot modulus) image_injective
    generator).symm

/-! ### All elements -/

theorem card_elt : Nat.card Gf2128Elt = 2 ^ 128 := by
  have words : Gf2128Elt ≃ Fin (2 ^ 128) :=
    ⟨fun a => a.bits.toFin, fun i => ⟨⟨i⟩⟩, fun _ => rfl, fun _ => rfl⟩
  rw [Nat.card_congr words, Nat.card_fin]

theorem isUnit_generator : IsUnit generator := by
  refine IsUnit.of_pow_eq_one (n := 2 ^ 128 - 1) ?_ (by decide)
  rw [← orderOf_generator]
  exact pow_orderOf_eq_one generator

instance : Nontrivial Gf2128Elt := ⟨1, 0, CompileField.one_ne_zero⟩

theorem pow_ne_zero' (i : ℕ) : generator ^ i ≠ 0 := fun zero =>
  absurd (isUnit_generator.pow i) (by rw [zero]; exact not_isUnit_zero)

/-- **Every element is zero or a power of the generator**: with one more element there would be more
than there are words. -/
theorem eq_zero_or_eq_pow (a : Gf2128Elt) : a = 0 ∨ ∃ i, a = generator ^ i := by
  by_contra other
  rw [not_or, not_exists] at other
  obtain ⟨nonzero, noPower⟩ := other
  let list : Option (Option (Fin (2 ^ 128 - 1))) → Gf2128Elt
    | none => 0
    | some none => a
    | some (some i) => generator ^ i.val
  have injective : Function.Injective list := by
    rintro (_ | _ | i) (_ | _ | j) same
    · rfl
    · exact absurd same.symm nonzero
    · exact absurd same.symm (pow_ne_zero' j)
    · exact absurd same nonzero
    · rfl
    · exact absurd same (noPower j)
    · exact absurd same (pow_ne_zero' i)
    · exact absurd same.symm (noPower i)
    · rw [Fin.ext (pow_injOn_Iio_orderOf (by simp [orderOf_generator]) (by simp [orderOf_generator])
        same)]
  have finite : Finite Gf2128Elt := Nat.finite_of_card_ne_zero (by rw [card_elt]; positivity)
  have more := Nat.card_le_card_of_injective list injective
  rw [card_elt, Finite.card_option, Finite.card_option, Nat.card_fin] at more
  omega

theorem isUnit_of_ne_zero {a : Gf2128Elt} (nonzero : a ≠ 0) : IsUnit a := by
  obtain rfl | ⟨i, rfl⟩ := eq_zero_or_eq_pow a
  · exact absurd rfl nonzero
  · exact isUnit_generator.pow i

instance : NoZeroDivisors Gf2128Elt where
  eq_zero_or_eq_zero_of_mul_eq_zero {a b} product := by
    by_cases zero : a = 0
    · exact .inl zero
    · exact .inr ((isUnit_of_ne_zero zero).mul_right_eq_zero.mp product)

end Longfellow.Gadget.Gf2128Elt
