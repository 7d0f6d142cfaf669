/-
**The fields of the circuits** (`compile/algebra/src/fp.rs`, `compile/algebra/src/gf2_128.rs`).

A prime field packs one bit less than its modulus has, with the powers of two as a basis: sums of
different powers stay below the modulus. The binary field packs 128 bits, with the powers of `X`.

* `Gf2128Elt.weighted_pseudoBasis` — **the element of 128 bits is their word**.
-/

import Longfellow.Algebra.Gf2128
import Longfellow.Gadget.Logic

namespace Longfellow.Gadget

open Lib Polynomial

/-- The numeral two of a ring. -/
local instance modulus_two_atLeastTwo : Nat.AtLeastTwo 2 := inferInstance

/-! ### Prime fields -/

section Prime

variable {p : ℕ} [Fact p.Prime]

theorem weighted_pow_two (bits : List Bool) :
    weighted (fun i => ((2 ^ i : ℕ) : ZMod p)) bits = (natBits bits : ℕ) :=
  (weighted_map (Nat.castRingHom (ZMod p)) (fun i => 2 ^ i) bits).symm

theorem natBits_lt_modulus {bits : List Bool} (fits : bits.length ≤ p.log2) : natBits bits < p :=
  lt_of_lt_of_le (lt_of_lt_of_le (natBits_lt bits) (Nat.pow_le_pow_right (by decide) fits))
    (Nat.log2_self_le (Fact.out : p.Prime).ne_zero)

theorem inv_two_mul_two (odd : (2 : ZMod p) ≠ 0) : (2⁻¹ : ZMod p) * 2 = 1 := inv_mul_cancel₀ odd

instance : CompileField (ZMod p) where
  one_ne_zero := one_ne_zero
  half := 2⁻¹
  half_mul_two := inv_two_mul_two
  pseudoDimension := p.log2
  pseudoDimension_pos := by
    have two := (Fact.out : p.Prime).two_le
    exact (Nat.le_log2 (by omega)).mpr two
  pseudoBasis i := ((2 ^ i : ℕ) : ZMod p)
  independent xs ys size fits same := by
    rw [weighted_pow_two, weighted_pow_two, ZMod.natCast_eq_natCast_iff'] at same
    rw [Nat.mod_eq_of_lt (natBits_lt_modulus fits),
      Nat.mod_eq_of_lt (natBits_lt_modulus (size ▸ fits))] at same
    exact natBits_injective size same

end Prime

/-! ### The binary field -/

/-- An element of the binary field. -/
structure Gf2128Elt where
  bits : Gf2128
  deriving DecidableEq

namespace Gf2128Elt

open Gf2128

instance : Zero Gf2128Elt := ⟨⟨0⟩⟩

instance : One Gf2128Elt := ⟨⟨1⟩⟩

instance : Add Gf2128Elt := ⟨fun a b => ⟨a.bits ^^^ b.bits⟩⟩

instance : Sub Gf2128Elt := ⟨fun a b => ⟨a.bits ^^^ b.bits⟩⟩

instance : Neg Gf2128Elt := ⟨fun a => 0 - a⟩

def mul (a b : Gf2128Elt) : Gf2128Elt := ⟨Compile.mul a.bits b.bits⟩

instance : Mul Gf2128Elt := ⟨mul⟩

/-- The class of an element. -/
noncomputable def image (a : Gf2128Elt) : AdjoinRoot modulus := value a.bits

theorem image_injective : Function.Injective image := by
  intro a b same
  cases a
  cases b
  exact congrArg mk (value_injective same)

@[simp] theorem image_zero : image 0 = 0 := value_zero

@[simp] theorem image_one : image 1 = 1 := by
  show classOf (toPoly (1#128)) = 1
  rw [toPoly_one (by decide), classOf_one]

@[simp] theorem image_add (a b : Gf2128Elt) : image (a + b) = image a + image b :=
  value_xor a.bits b.bits

@[simp] theorem image_sub (a b : Gf2128Elt) : image (a - b) = image a - image b := by
  have sum : image (a - b) = image a + image b := value_xor a.bits b.bits
  rw [sum]
  linear_combination image b * two_eq_zero

@[simp] theorem image_neg (a : Gf2128Elt) : image (-a) = -image a := by
  have difference : image (-a) = image 0 - image a := image_sub 0 a
  rw [difference, image_zero, zero_sub]

@[simp] theorem image_mul (a b : Gf2128Elt) : image (a * b) = image a * image b := by
  show image (mul a b) = image a * image b
  rw [image, mul, shiftXor_spec]
  rfl

theorem mk_add (a b : BitVec 128) : (⟨a⟩ : Gf2128Elt) + ⟨b⟩ = ⟨a ^^^ b⟩ := rfl

theorem mk_mul (a b : BitVec 128) : (⟨a⟩ : Gf2128Elt) * ⟨b⟩ = ⟨Compile.mul a b⟩ := by
  show mul ⟨a⟩ ⟨b⟩ = _
  rw [mul]

instance : CommRing Gf2128Elt where
  add_assoc a b c := image_injective (by simp only [image_add]; ring)
  zero_add a := image_injective (by simp)
  add_zero a := image_injective (by simp)
  add_comm a b := image_injective (by simp only [image_add]; ring)
  nsmul := nsmulRec
  zsmul := zsmulRec
  left_distrib a b c := image_injective (by simp only [image_add, image_mul]; ring)
  right_distrib a b c := image_injective (by simp only [image_add, image_mul]; ring)
  zero_mul a := image_injective (by simp)
  mul_zero a := image_injective (by simp)
  mul_assoc a b c := image_injective (by simp only [image_mul]; ring)
  one_mul a := image_injective (by simp)
  mul_one a := image_injective (by simp)
  neg_add_cancel a := image_injective (by simp)
  sub_eq_add_neg a b := image_injective (by simp [sub_eq_add_neg])
  mul_comm a b := image_injective (by simp only [image_mul]; ring)

/-- The class, as a homomorphism. -/
noncomputable def imageHom : Gf2128Elt →+* AdjoinRoot modulus where
  toFun := image
  map_zero' := image_zero
  map_one' := image_one
  map_add' := image_add
  map_mul' := image_mul

theorem two_eq_zero_elt : (2 : Gf2128Elt) = 0 := by
  refine image_injective ?_
  rw [image_zero, ← two_eq_zero]
  exact map_ofNat imageHom 2

theorem zero_mul_two (odd : (2 : Gf2128Elt) ≠ 0) : (0 : Gf2128Elt) * 2 = 1 :=
  absurd two_eq_zero_elt odd

/-- The basis of the powers of `X`. -/
def basis (i : ℕ) : Gf2128Elt := ⟨1#128 <<< i⟩

theorem image_weighted {bits : List Bool} (fits : bits.length ≤ 128) :
    image (weighted basis bits) = classOf (polyBits bits) := by
  have place : ∀ i < bits.length, imageHom (basis i) = classOf (X ^ i) := by
    intro i inside
    show classOf (toPoly (BitVec.twoPow 128 i)) = classOf (X ^ i)
    rw [toPoly_twoPow (by omega)]
  exact (weighted_map imageHom basis bits).trans ((weighted_congr place).trans
    (weighted_map (AdjoinRoot.mk modulus) _ bits).symm)

instance : CompileField Gf2128Elt where
  one_ne_zero := by decide
  half := 0
  half_mul_two := zero_mul_two
  pseudoDimension := 128
  pseudoDimension_pos := by decide
  pseudoBasis := basis
  independent xs ys size fits same := by
    have classes := congrArg image same
    rw [image_weighted fits, image_weighted (size ▸ fits)] at classes
    have remainders : polyBits xs %ₘ modulus = polyBits ys %ₘ modulus :=
      modByMonic_eq_of_dvd_sub monic_modulus (AdjoinRoot.mk_eq_mk.mp classes)
    rw [polyBits_mod fits, polyBits_mod (size ▸ fits)] at remainders
    exact polyBits_injective size remainders

/-- **The element of 128 bits is their word.** -/
theorem weighted_pseudoBasis (x : BitVec 128) :
    weighted (CompileField.pseudoBasis (E := Gf2128Elt)) (bitsOf x) = ⟨x⟩ := by
  refine image_injective ((image_weighted (length_bitsOf x).le).trans ?_)
  rw [polyBits_bitsOf]
  rfl

end Gf2128Elt

end Longfellow.Gadget
