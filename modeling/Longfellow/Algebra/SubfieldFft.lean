/-
**The additive Fourier transform of a subfield** (`runtime/algebra/src/lch14.rs`).

The elements of GF(2^128) are added by XOR, and multiplied by what the processor has. The points of
the transforms are those that the subfield numbers.

* `lch14_exact` — **the transforms of every subfield**, for every multiplication.
-/

import Longfellow.Algebra.Inversion
import Longfellow.Algebra.NovelBasis
import Longfellow.Algebra.Subfield

namespace Longfellow

open Lib

/-! ### The field -/

/-- A multiplication of the field, as a processor has it. -/
structure ArchMul where
  mul : Gf2128 → Gf2128 → Gf2128
  multiplies : Gf2128.Multiplies mul

namespace ArchMul

/-- The portable multiplication. -/
def portable : ArchMul := ⟨Gf2128.Generic.mul, Gf2128.multiplies_portable⟩

/-- The multiplication over the instruction for carry-less products. -/
def x86 {clmul : BitVec 64 → BitVec 64 → BitVec 128} (intrinsic : Gf2128.IsClmul clmul) :
    ArchMul :=
  ⟨Gf2128.X86.mul clmul, Gf2128.multiplies_x86 intrinsic⟩

end ArchMul

/-- An element. -/
structure RuntimeElt (arch : ArchMul) where
  bits : Gf2128

namespace RuntimeElt

open Gf2128

variable {ε : Type} {arch : ArchMul}

instance : Zero (RuntimeElt arch) := ⟨⟨0⟩⟩

instance : One (RuntimeElt arch) := ⟨⟨1⟩⟩

instance : Add (RuntimeElt arch) := ⟨fun a b => ⟨a.bits ^^^ b.bits⟩⟩

instance : Sub (RuntimeElt arch) := ⟨fun a b => ⟨a.bits ^^^ b.bits⟩⟩

instance : Neg (RuntimeElt arch) := ⟨fun a => 0 - a⟩

instance : Mul (RuntimeElt arch) := ⟨fun a b => ⟨arch.mul a.bits b.bits⟩⟩

def invert (a : RuntimeElt arch) : Exec ε (RuntimeElt arch) := do
  let inverse ← Gf2128.invert arch.mul a.bits
  pure ⟨inverse⟩

/-- The element of the circuits' field. -/
def toElt (a : RuntimeElt arch) : Gadget.Gf2128Elt := ⟨a.bits⟩

theorem ext_bits {a b : RuntimeElt arch} (same : a.bits = b.bits) : a = b := by
  cases a
  exact congrArg mk same

theorem toElt_injective : Function.Injective (toElt : RuntimeElt arch → _) := fun _ _ same =>
  ext_bits (congrArg Gadget.Gf2128Elt.bits same)

theorem toElt_zero : toElt (0 : RuntimeElt arch) = 0 := rfl

theorem toElt_one : toElt (1 : RuntimeElt arch) = 1 := rfl

theorem toElt_add (a b : RuntimeElt arch) : toElt (a + b) = toElt a + toElt b := rfl

theorem toElt_sub (a b : RuntimeElt arch) : toElt (a - b) = toElt a - toElt b := rfl

theorem toElt_neg (a : RuntimeElt arch) : toElt (-a) = -toElt a := rfl

theorem toElt_mul (a b : RuntimeElt arch) : toElt (a * b) = toElt a * toElt b := by
  refine Gadget.Gf2128Elt.image_injective ?_
  rw [Gadget.Gf2128Elt.image_mul]
  exact arch.multiplies a.bits b.bits

instance : CommRing (RuntimeElt arch) where
  add_assoc a b c := toElt_injective (by simp only [toElt_add]; ring)
  zero_add a := toElt_injective (by simp only [toElt_add, toElt_zero]; ring)
  add_zero a := toElt_injective (by simp only [toElt_add, toElt_zero]; ring)
  add_comm a b := toElt_injective (by simp only [toElt_add]; ring)
  nsmul := nsmulRec
  zsmul := zsmulRec
  left_distrib a b c := toElt_injective (by simp only [toElt_add, toElt_mul]; ring)
  right_distrib a b c := toElt_injective (by simp only [toElt_add, toElt_mul]; ring)
  zero_mul a := toElt_injective (by simp only [toElt_mul, toElt_zero]; ring)
  mul_zero a := toElt_injective (by simp only [toElt_mul, toElt_zero]; ring)
  mul_assoc a b c := toElt_injective (by simp only [toElt_mul]; ring)
  one_mul a := toElt_injective (by simp only [toElt_mul, toElt_one]; ring)
  mul_one a := toElt_injective (by simp only [toElt_mul, toElt_one]; ring)
  neg_add_cancel a := toElt_injective (by simp only [toElt_add, toElt_neg, toElt_zero]; ring)
  sub_eq_add_neg a b := toElt_injective (by simp only [toElt_add, toElt_sub, toElt_neg]; ring)
  mul_comm a b := toElt_injective (by simp only [toElt_mul]; ring)

theorem invert_spec {a : RuntimeElt arch} (nonzero : a ≠ 0) :
    ∃ c, invert a = (.ok c : Exec ε _) ∧ c * a = 1 := by
  obtain ⟨c, ran, inverse⟩ := invert_returns (ε := ε) arch.multiplies
    fun zero => nonzero (ext_bits (b := 0) zero)
  exact ⟨⟨c⟩, by rw [invert, ran]; rfl, ext_bits inverse⟩

theorem exists_inverse (a : RuntimeElt arch) : ∃ c : RuntimeElt arch, (a = 0 → c = 0) ∧
    (a ≠ 0 → a * c = 1) := by
  by_cases zero : a = 0
  · exact ⟨0, fun _ => rfl, fun nonzero => absurd zero nonzero⟩
  · obtain ⟨c, -, inverse⟩ := invert_spec (ε := Unit) zero
    exact ⟨c, fun isZero => absurd isZero zero, fun _ => by rw [mul_comm, inverse]⟩

noncomputable instance : Field (RuntimeElt arch) where
  inv a := (exists_inverse a).choose
  exists_pair_ne := ⟨0, 1, fun same =>
    absurd (congrArg bits same) (show (0 : Gf2128) ≠ 1 by decide)⟩
  mul_inv_cancel a nonzero := (exists_inverse a).choose_spec.2 nonzero
  inv_zero := (exists_inverse 0).choose_spec.1 rfl
  nnqsmul := _
  qsmul := _

instance : CharP (RuntimeElt arch) 2 :=
  CharTwo.of_one_ne_zero_of_two_eq_zero one_ne_zero (by
    rw [← one_add_one_eq_two]
    exact ext_bits (BitVec.xor_self (x := (1 : Gf2128))))

instance : Finite (RuntimeElt arch) :=
  Finite.of_injective (fun a : RuntimeElt arch => a.bits.toFin) fun _ _ same =>
    ext_bits (BitVec.eq_of_toFin_eq same)

end RuntimeElt

/-! ### The transforms of a subfield -/

open Lib.Subspace

variable {ε : Type} {arch : ArchMul} {basis : List Gf2128} {f : BinarySubfield}

/-- The elements of a basis. -/
def eltsOf (arch : ArchMul) (basis : List Gf2128) : List (RuntimeElt arch) := basis.map .mk

/-- The basis of the subfield, without what fills its array. -/
def BinarySubfield.basisSlice (f : BinarySubfield) : List Gf2128 := f.basis.take f.len

/-- The tables for a subfield. -/
def Lch14.ofSubfield (arch : ArchMul) (f : BinarySubfield) : Exec ε (Lch14 (RuntimeElt arch)) :=
  Lch14.new RuntimeElt.invert (eltsOf arch f.basisSlice)

variable (arch) in
theorem vectorOf_point (u : ℕ) : vectorOf (point (eltsOf arch basis) u).bits =
    combination basis (coefficients basis.length u) := by
  let vector : RuntimeElt arch →+ (ℕ → ZMod 2) :=
    AddMonoidHom.mk' (fun a => vectorOf a.bits) fun a b => vectorOf_xor a.bits b.bits
  have size : (eltsOf arch basis).length = basis.length := List.length_map _
  refine (map_sum vector _ _).trans ?_
  rw [size, Finset.sum_range, combination, Fintype.linearCombination_apply]
  refine Finset.sum_congr rfl fun i _ => ?_
  have element : (eltsOf arch basis).getD i 0 = ⟨basis.get i⟩ := by
    rw [List.getD_eq_getElem _ _ (by rw [size]; exact i.2)]
    exact List.getElem_map _
  rw [apply_ite vector, map_zero, element, coefficients]
  cases u.testBit i with
  | true => rw [if_pos rfl, bitVal_true, one_smul]; rfl
  | false => rw [if_neg Bool.false_ne_true, bitVal_false, zero_smul]

variable (arch) in
/-- **A basis of full rank** numbers different points. -/
theorem independent_of_fullRank (fullRank : FullRank basis) :
    Independent (eltsOf arch basis) := by
  have size : (eltsOf arch basis).length = basis.length := List.length_map _
  intro u small zero
  rw [size] at small
  have none : combination basis (coefficients basis.length u) = 0 := by
    rw [← vectorOf_point arch, zero]
    exact vectorOf_zero
  have same : coefficients basis.length u = coefficients basis.length 0 := by
    refine combination_injective fullRank ?_
    rw [none, coefficients_zero, map_zero]
  exact coefficients_injOn small (Nat.two_pow_pos _) same

/-- **The element of a number** is its point. -/
theorem BinarySubfield.Holds.embed_eq_point (holds : BinarySubfield.Holds basis f) {u : ℕ}
    (small : u < 2 ^ basis.length) :
    f.embed u = (.ok (point (eltsOf arch basis) u).bits : Exec ε _) := by
  obtain ⟨e, ran, value⟩ := holds.embed (ε := ε) small
  rw [ran, vectorOf_injective (value.trans (vectorOf_point arch u).symm)]

/-- **The transforms of every subfield**: the points are the elements of the numbers of a coset. -/
theorem lch14_exact (arch : ArchMul) (basis : List Gf2128) (some : basis ≠ [])
    (short : basis.length ≤ 16) (aligned : basis.length % 8 = 0) (fullRank : FullRank basis) :
    ∃ f : BinarySubfield, BinarySubfield.new basis = (.ok f : Exec ε _) ∧
      (∀ u < 2 ^ basis.length, f.embed u = (.ok (point (eltsOf arch basis) u).bits : Exec ε _)) ∧
      ∃ g, Lch14.ofSubfield arch f = (.ok g : Exec ε _) ∧
        g.Transforms ε (eltsOf arch basis) := by
  obtain ⟨f, made, holds⟩ := BinarySubfield.new_returns (ε := ε) short aligned fullRank
  have slice : f.basisSlice = basis := by
    rw [BinarySubfield.basisSlice, holds.elements, holds.len, List.take_left]
  obtain ⟨g, ran, dimension, valid, factors⟩ := Lch14.new_valid (ε := ε)
    (fun e nonzero => RuntimeElt.invert_spec nonzero)
    (mt List.map_eq_nil_iff.mp some) (independent_of_fullRank arch fullRank)
  refine ⟨f, made, fun u small => holds.embed_eq_point small, g, ?_,
    Lch14.transforms valid dimension factors⟩
  rw [Lch14.ofSubfield, slice]
  exact ran

/-- The transforms for the elements of one byte. -/
theorem lch14_exact_monomials :
    ∃ f : BinarySubfield, BinarySubfield.new monomialBasis = (.ok f : Exec String _) ∧
      (∀ u < 2 ^ 8, f.embed u =
        (.ok (point (eltsOf .portable monomialBasis) u).bits : Exec String _)) ∧
      ∃ g, Lch14.ofSubfield .portable f = (.ok g : Exec String _) ∧
        g.Transforms String (eltsOf .portable monomialBasis) :=
  lch14_exact .portable monomialBasis (by decide) (by decide) (by decide) fullRank_monomials

end Longfellow
