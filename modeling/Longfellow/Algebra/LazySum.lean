/-
**Sums of products with one reduction** (`fp_generic.rs`: `mac`, `accum_reduce`, `fma`).

Products are added up in a wide accumulator and reduced once at the end. The accumulator has one limb
more than a product, so it holds fewer than `2 ^ LIMB_BITS` products of canonical elements.

* `newGeneric_sums_iff` — an admitted field **sums exactly if and only if its limbs fit the buffer**.
-/

import Longfellow.Algebra.FpRefinement
import Mathlib.Algebra.BigOperators.Ring.Finset

namespace Longfellow.FpGeneric

open Lib Limb

variable {width : Width}

namespace FpGenericField

variable (F : FpGenericField width)

/-- Add the product of two elements to an element. -/
def fma (e1 a b : Element width) : Exec String (Element width) := do
  pure (F.add e1 (← F.mul a b))

def zeroAccum : Element width := List.replicate F.accumL 0

/-- The accumulator after some products. -/
def macs (pairs : List (Element width × Element width)) : Exec String (Element width) :=
  pairs.foldlM (fun acc xy => F.mac acc xy.1 xy.2) F.zeroAccum

/-- The sum of some products, reduced at the end. -/
def lazySum (pairs : List (Element width × Element width)) : Exec String (Element width) := do
  F.accumReduce (← F.macs pairs)

/-- The sum of some products, reduced at every step. -/
def foldFma (pairs : List (Element width × Element width)) : Exec String (Element width) :=
  pairs.foldlM (fun e xy => F.fma e xy.1 xy.2) F.zero

/-- **Sums of products are exact**: fewer than `2 ^ LIMB_BITS` products of canonical elements add up
to the canonical element of the sum modulo `p`, whether they are reduced at the end or at every
step. -/
def SumsExactly (p : ℕ) [Fact p.Prime] : Prop :=
  ∀ pairs : List (Element width × Element width), pairs.length < 2 ^ width.bits →
    (∀ xy ∈ pairs, F.IsCanonical p xy.1 ∧ F.IsCanonical p xy.2) →
    ∃ c, F.lazySum pairs = .ok c ∧ F.IsCanonical p c ∧
      F.repr p c = (pairs.map fun xy => F.repr p xy.1 * F.repr p xy.2).sum ∧
      F.foldFma pairs = .ok c

end FpGenericField

section

variable {p : ℕ} {F : FpGenericField width}
  {pairs : List (FpGenericField.Element width × FpGenericField.Element width)}

/-- The number that the accumulator should hold. -/
def productSum (pairs : List (FpGenericField.Element width × FpGenericField.Element width)) : ℕ :=
  (pairs.map fun xy => wordsVal xy.1 * wordsVal xy.2).sum

section

variable (valid : Valid F p) (few : pairs.length < 2 ^ width.bits)
  (canonical : ∀ xy ∈ pairs, F.IsCanonical p xy.1 ∧ F.IsCanonical p xy.2)
include valid few canonical

theorem productSum_lt :
    productSum pairs < (2 ^ width.bits) ^ F.accumL := by
  have modulus := valid.constants.modulus_lt
  have room := valid.room
  have each : productSum pairs ≤ pairs.length * (p * p) := by
    have bound := List.sum_le_card_nsmul
      (pairs.map fun xy => wordsVal xy.1 * wordsVal xy.2) (p * p) (by
        intro product member
        obtain ⟨xy, listed, rfl⟩ := List.mem_map.mp member
        obtain ⟨left, right⟩ := canonical xy listed
        exact Nat.mul_le_mul left.2.le right.2.le)
    rwa [List.length_map, smul_eq_mul] at bound
  have square : p * p < (2 ^ width.bits) ^ (2 * F.L) := by
    rw [two_mul, pow_add]
    exact Nat.mul_lt_mul'' modulus modulus
  calc productSum pairs ≤ pairs.length * (p * p) := each
    _ ≤ 2 ^ width.bits * (p * p) := Nat.mul_le_mul_right _ few.le
    _ < 2 ^ width.bits * (2 ^ width.bits) ^ (2 * F.L) :=
        Nat.mul_lt_mul_of_pos_left square (by positivity)
    _ = (2 ^ width.bits) ^ (2 * F.L + 1) := (pow_succ' _ _).symm
    _ ≤ (2 ^ width.bits) ^ F.accumL := Nat.pow_le_pow_right (by positivity) (by omega)

/-- **The accumulator holds the sum of the products.** -/
theorem macs_returns :
    ∃ acc, F.macs pairs = .ok acc ∧ acc.length = F.accumL ∧ wordsVal acc = productSum pairs := by
  have start : F.zeroAccum.length = F.accumL ∧ wordsVal F.zeroAccum = 0 :=
    ⟨List.length_replicate, wordsVal_replicate_zero _⟩
  refine foldlM_returns (ε := String)
    (fun done (acc : FpGenericField.Element width) =>
      acc.length = F.accumL ∧ wordsVal acc = productSum done) start ?_
  rintro done xy acc listed ⟨size, value⟩
  obtain ⟨left, right⟩ := canonical xy (listed.subset (by simp))
  have next : productSum (done ++ [xy]) = wordsVal acc + wordsVal xy.1 * wordsVal xy.2 := by
    rw [productSum, List.map_append, List.sum_append, List.map_singleton, List.sum_singleton, value]
    rfl
  have fits := productSum_lt valid (lt_of_le_of_lt listed.length_le few)
    fun xy member => canonical xy (listed.subset member)
  rw [next] at fits ⊢
  exact mac_returns valid size left.1 right.1 fits

end

variable [Fact p.Prime]

/-- The sum that the elements represent. -/
def reprSum (F : FpGenericField width) (p : ℕ) [Fact p.Prime]
    (pairs : List (FpGenericField.Element width × FpGenericField.Element width)) : ZMod p :=
  (pairs.map fun xy => F.repr p xy.1 * F.repr p xy.2).sum

/-- What the accumulator holds is the sum with two factors `R`. -/
theorem productSum_cast (valid : Valid F p)
    (canonical : ∀ xy ∈ pairs, F.IsCanonical p xy.1 ∧ F.IsCanonical p xy.2) :
    (productSum pairs : ZMod p) =
      reprSum F p pairs * (2 ^ width.bits) ^ F.L * (2 ^ width.bits) ^ F.L := by
  have number : ∀ e, F.IsCanonical p e →
      (wordsVal e : ZMod p) = F.repr p e * (2 ^ width.bits) ^ F.L := fun e isCanonical =>
    ((isForm_iff valid).mpr ⟨isCanonical, rfl⟩).value
  rw [productSum, reprSum, Nat.cast_list_sum, List.map_map, mul_assoc, ← List.sum_map_mul_right]
  refine congrArg List.sum (List.map_congr_left fun xy member => ?_)
  obtain ⟨left, right⟩ := canonical xy member
  rw [Function.comp_apply, Nat.cast_mul, number _ left, number _ right]
  ring

section

variable (valid : Valid F p) (small : F.L ≤ 16)
include valid small

theorem lazySum_form (few : pairs.length < 2 ^ width.bits)
    (canonical : ∀ xy ∈ pairs, F.IsCanonical p xy.1 ∧ F.IsCanonical p xy.2) :
    ∃ c, F.lazySum pairs = .ok c ∧ F.IsForm p c (reprSum F p pairs) := by
  obtain ⟨acc, ran, size, value⟩ := macs_returns valid few canonical
  obtain ⟨c, reduced, residue⟩ := accumReduce_residue valid small size
  refine ⟨c, by rw [FpGenericField.lazySum, ran, ok_bind, reduced], residue _ ?_⟩
  rw [value, productSum_cast valid canonical]

theorem fma_form {e a b : FpGenericField.Element width} {z x y : ZMod p} (start : F.IsForm p e z)
    (left : F.IsForm p a x) (right : F.IsForm p b y) :
    ∃ c, F.fma e a b = .ok c ∧ F.IsForm p c (z + x * y) := by
  obtain ⟨product, ran, form⟩ := mul_form valid small left right
  exact ⟨_, by rw [FpGenericField.fma, ran, ok_bind, pure_eq_ok], add_form valid start form⟩

theorem foldFma_form (canonical : ∀ xy ∈ pairs, F.IsCanonical p xy.1 ∧ F.IsCanonical p xy.2) :
    ∃ c, F.foldFma pairs = .ok c ∧ F.IsForm p c (reprSum F p pairs) := by
  refine foldlM_returns (ε := String) (fun done e => F.IsForm p e (reprSum F p done))
    (zero_form valid) ?_
  intro done xy e listed start
  obtain ⟨left, right⟩ := canonical xy (listed.subset (by simp))
  have next : reprSum F p (done ++ [xy]) =
      reprSum F p done + F.repr p xy.1 * F.repr p xy.2 := by
    rw [reprSum, List.map_append, List.sum_append, List.map_singleton, List.sum_singleton]
    rfl
  rw [next]
  exact fma_form valid small start ((isForm_iff valid).mpr ⟨left, rfl⟩)
    ((isForm_iff valid).mpr ⟨right, rfl⟩)

theorem sumsExactly_of_small : F.SumsExactly p := by
  intro pairs few canonical
  obtain ⟨c, ran, form⟩ := lazySum_form valid small few canonical
  obtain ⟨c', ran', form'⟩ := foldFma_form valid small canonical
  obtain ⟨isCanonical, value⟩ := (isForm_iff valid).mp form
  rw [form'.unique form] at ran'
  exact ⟨c, ran, isCanonical, value, ran'⟩

end

theorem not_sumsExactly_of_large (large : 16 < F.L) : ¬ F.SumsExactly p := by
  intro sums
  obtain ⟨c, ran, -⟩ := sums [] (by simp) (by simp)
  rw [FpGenericField.lazySum, FpGenericField.macs, List.foldlM_nil, pure_eq_ok, ok_bind,
    FpGenericField.accumReduce] at ran
  simp only [bind_eq_ok] at ran
  obtain ⟨-, -, -, -, -, -, res, -, top, -, product⟩ := ran
  rw [mul_aborts large] at product
  exact abort_ne_ok _ _ product

end

/-- **An admitted field sums products exactly if and only if its limbs fit the buffer of the
product.** -/
theorem newGeneric_sums_iff {L accumL : ℕ} {words : List (BitVec 64)} {F : FpGenericField width}
    [Fact (wordsVal words).Prime] (admitted : newGeneric width L accumL words = .ok F) :
    F.SumsExactly (wordsVal words) ↔ L ≤ 16 := by
  obtain ⟨_, size, valid⟩ := newGeneric_valid admitted
  rw [← size]
  refine ⟨fun sums => ?_, sumsExactly_of_small valid⟩
  by_contra large
  exact not_sumsExactly_of_large (by omega) sums

/-- The integers modulo 7 sum exactly. -/
theorem newGeneric_sums_seven : ∃ _ : Fact (wordsVal [7#64]).Prime, ∃ F,
    newGeneric .limb64 1 3 [7#64] = .ok F ∧ F.SumsExactly (wordsVal [7#64]) := by
  obtain ⟨prime, F, admitted⟩ := exists_seven
  exact ⟨prime, F, admitted, (newGeneric_sums_iff admitted).mpr (by decide)⟩

/-- The integers modulo 3 in 17 words are admitted, and no sum of theirs returns. -/
theorem newGeneric_three_no_sum :
    ∃ F, newGeneric .limb64 17 35 (3#64 :: List.replicate 16 0#64) = .ok F ∧
      wordsVal (3#64 :: List.replicate 16 0#64) = 3 ∧ ¬ F.SumsExactly 3 := by
  obtain ⟨F, admitted, value, size, -⟩ := exists_three
  exact ⟨F, admitted, value, not_sumsExactly_of_large (by omega)⟩

end Longfellow.FpGeneric
