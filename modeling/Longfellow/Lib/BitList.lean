/-
**Lists of bits as numbers of a ring.**

A list of bits, least significant first, with a weight for every position.

* `polyBits_productBits` — **the bits of a product**.
-/

import Longfellow.Lib.BinaryPoly
import Mathlib.Data.List.GetD
import Mathlib.Tactic.LinearCombination

namespace Lib

open Polynomial

theorem mod_two_pow_succ (x w : ℕ) :
    x % 2 ^ (w + 1) = x % 2 ^ w + if x.testBit w then 2 ^ w else 0 := by
  rw [Nat.mod_pow_succ, Nat.testBit_eq_decide_div_mod_eq]
  obtain zero | one : x / 2 ^ w % 2 = 0 ∨ x / 2 ^ w % 2 = 1 := by omega
  · simp [zero]
  · simp [one]

/-- Lists combined from related lists are related. -/
theorem forall₂_zipWith {α β γ δ ε ζ : Type} {r : α → β → Prop} {q : γ → δ → Prop}
    {p : ε → ζ → Prop} {f : α → γ → ε} {g : β → δ → ζ}
    (step : ∀ {a b c d}, r a b → q c d → p (f a c) (g b d)) {as : List α} {bs : List β}
    {cs : List γ} {ds : List δ} (left : List.Forall₂ r as bs) (right : List.Forall₂ q cs ds) :
    List.Forall₂ p (List.zipWith f as cs) (List.zipWith g bs ds) := by
  induction left generalizing cs ds with
  | nil => exact .nil
  | cons head _ ih => cases right with
    | nil => exact .nil
    | cons head' rest' => exact .cons (step head head') (ih rest')

variable {R S : Type} [CommSemiring R] [CommSemiring S]

/-- The sum of the weights of the bits that are set. -/
def weighted (weight : ℕ → R) : List Bool → R
  | [] => 0
  | b :: bits => (if b then weight 0 else 0) + weighted (fun i => weight (i + 1)) bits

@[simp] theorem weighted_nil (weight : ℕ → R) : weighted weight [] = 0 := rfl

@[simp] theorem weighted_cons (weight : ℕ → R) (b : Bool) (bits : List Bool) :
    weighted weight (b :: bits) =
      (if b then weight 0 else 0) + weighted (fun i => weight (i + 1)) bits := rfl

theorem weighted_append (weight : ℕ → R) (xs ys : List Bool) :
    weighted weight (xs ++ ys) =
      weighted weight xs + weighted (fun i => weight (i + xs.length)) ys := by
  induction xs generalizing weight with
  | nil => simp
  | cons x xs ih =>
    rw [List.cons_append, weighted_cons, weighted_cons, ih, add_assoc, List.length_cons]
    rfl

theorem weighted_map (f : R →+* S) (weight : ℕ → R) (bits : List Bool) :
    f (weighted weight bits) = weighted (fun i => f (weight i)) bits := by
  induction bits generalizing weight with
  | nil => exact map_zero f
  | cons b bits ih => cases b <;> simp [ih]

theorem weighted_scale (c : R) (weight : ℕ → R) (bits : List Bool) :
    weighted (fun i => c * weight i) bits = c * weighted weight bits := by
  induction bits generalizing weight with
  | nil => exact (mul_zero c).symm
  | cons b bits ih => cases b <;> simp [ih, mul_add]

theorem weighted_congr {weight weight' : ℕ → R} {bits : List Bool}
    (same : ∀ i < bits.length, weight i = weight' i) :
    weighted weight bits = weighted weight' bits := by
  induction bits generalizing weight weight' with
  | nil => rfl
  | cons b bits ih =>
    rw [weighted_cons, weighted_cons, same 0 (Nat.succ_pos _),
      ih fun i inside => same (i + 1) (Nat.succ_lt_succ inside)]

theorem sum_weights (weight : ℕ → R) (bits : List Bool) (k : ℕ) :
    ((bits.zipIdx k).map fun b => weight b.2 * if b.1 then 1 else 0).sum =
      weighted (fun i => weight (i + k)) bits := by
  induction bits generalizing k with
  | nil => rfl
  | cons b bits ih =>
    rw [List.zipIdx_cons, List.map_cons, List.sum_cons, ih, weighted_cons, Nat.zero_add]
    congr 1
    · cases b <;> simp
    · congr 1
      funext i
      rw [show i + 1 + k = i + (k + 1) by omega]

variable {xs ys : List Bool}

theorem weighted_xor {R : Type} [CommRing R] (even : (2 : R) = 0) (weight : ℕ → R)
    (size : xs.length = ys.length) :
    weighted weight (List.zipWith (· ^^ ·) xs ys) = weighted weight xs + weighted weight ys := by
  induction xs generalizing ys weight with
  | nil =>
    obtain rfl := List.eq_nil_of_length_eq_zero size.symm
    simp
  | cons x xs ih => cases ys with
    | nil => simp at size
    | cons y ys =>
      rw [List.zipWith_cons_cons, weighted_cons, weighted_cons, weighted_cons,
        ih _ (by simpa using size)]
      have double : weight 0 + weight 0 = 0 := by rw [← two_mul, even, zero_mul]
      cases x <;> cases y
      · simp
      · simp only [Bool.false_xor, if_true, Bool.false_eq_true, if_false]
        ring
      · simp only [Bool.xor_false, if_true, Bool.false_eq_true, if_false]
        ring
      · simp only [Bool.xor_self, Bool.false_eq_true, if_false, if_true]
        linear_combination -double

/-! ### Numbers -/

/-- The number of a list of bits. -/
def natBits (bits : List Bool) : ℕ := weighted (fun i => 2 ^ i) bits

theorem natBits_cons (b : Bool) (bits : List Bool) :
    natBits (b :: bits) = b.toNat + 2 * natBits bits := by
  have shifted : weighted (fun i => 2 ^ (i + 1)) bits = 2 * natBits bits := by
    simp only [pow_succ']
    exact weighted_scale 2 _ bits
  rw [natBits, weighted_cons, shifted, pow_zero]
  cases b <;> rfl

theorem natBits_lt (bits : List Bool) : natBits bits < 2 ^ bits.length := by
  induction bits with
  | nil => exact Nat.one_pos
  | cons b bits ih =>
    have small := Bool.toNat_le b
    rw [natBits_cons, List.length_cons, pow_succ]
    omega

theorem natBits_injective (size : xs.length = ys.length) (same : natBits xs = natBits ys) :
    xs = ys := by
  induction xs generalizing ys with
  | nil => exact (List.eq_nil_of_length_eq_zero size.symm).symm
  | cons x xs ih => cases ys with
    | nil => exact absurd size (Nat.succ_ne_zero _)
    | cons y ys =>
      have first := Bool.toNat_le x
      have second := Bool.toNat_le y
      have head : x = y → x :: xs = y :: ys := by
        rintro rfl
        rw [natBits_cons, natBits_cons] at same
        rw [ih (Nat.succ.inj size) (by omega)]
      rw [natBits_cons, natBits_cons] at same
      refine head ?_
      cases x <;> cases y <;> simp at same first second ⊢ <;> omega

/-! ### Polynomials -/

/-- The polynomial of a list of bits. -/
noncomputable def polyBits (bits : List Bool) : (ZMod 2)[X] := weighted (fun i => X ^ i) bits

theorem two_eq_zero_poly : (2 : (ZMod 2)[X]) = 0 := by
  have two : (2 : ZMod 2) = 0 := rfl
  rw [← map_ofNat (C : ZMod 2 →+* (ZMod 2)[X]) 2, two, map_zero]

@[simp] theorem polyBits_nil : polyBits [] = 0 := rfl

theorem polyBits_cons (b : Bool) (bits : List Bool) :
    polyBits (b :: bits) = C (bitVal b) + X * polyBits bits := by
  have shifted : weighted (fun i => (X : (ZMod 2)[X]) ^ (i + 1)) bits = X * polyBits bits := by
    simp only [pow_succ']
    exact weighted_scale X _ bits
  rw [polyBits, weighted_cons, shifted, pow_zero]
  cases b <;> simp

theorem coeff_polyBits (bits : List Bool) (k : ℕ) :
    (polyBits bits).coeff k = bitVal (bits.getD k false) := by
  induction bits generalizing k with
  | nil => simp
  | cons b bits ih =>
    rw [polyBits_cons, coeff_add]
    cases k with
    | zero => rw [coeff_C_zero, coeff_X_mul_zero, add_zero, List.getD_cons_zero]
    | succ k => rw [coeff_C_succ, coeff_X_mul, zero_add, ih, List.getD_cons_succ]

theorem polyBits_append (xs ys : List Bool) :
    polyBits (xs ++ ys) = polyBits xs + X ^ xs.length * polyBits ys := by
  have shifted : weighted (fun i => (X : (ZMod 2)[X]) ^ (i + xs.length)) ys =
      X ^ xs.length * polyBits ys := by
    simp only [pow_add, mul_comm _ (X ^ xs.length)]
    exact weighted_scale _ _ ys
  rw [polyBits, weighted_append, shifted]
  rfl

theorem polyBits_xor (size : xs.length = ys.length) :
    polyBits (List.zipWith (· ^^ ·) xs ys) = polyBits xs + polyBits ys :=
  weighted_xor two_eq_zero_poly _ size

theorem polyBits_injective (size : xs.length = ys.length) (same : polyBits xs = polyBits ys) :
    xs = ys := by
  refine List.ext_getElem size fun i inside inside' => bitVal_injective ?_
  rw [← List.getD_eq_getElem _ false inside, ← List.getD_eq_getElem _ false inside',
    ← coeff_polyBits, ← coeff_polyBits, same]

theorem polyBits_modify {bits : List Bool} {i : ℕ} (inside : i < bits.length) :
    polyBits (bits.modify i (!·)) = polyBits bits + X ^ i := by
  induction bits generalizing i with
  | nil => exact absurd inside (Nat.not_lt_zero i)
  | cons b bits ih => cases i with
    | zero =>
      have flipped : bitVal (!b) = bitVal b + 1 := by cases b <;> decide
      rw [List.modify_zero_cons, polyBits_cons, polyBits_cons, flipped, C_add, C_1, pow_zero]
      ring
    | succ i =>
      rw [List.modify_succ_cons, polyBits_cons, polyBits_cons, ih (Nat.lt_of_succ_lt_succ inside),
        pow_succ']
      ring

theorem polyBits_concat (bits : List Bool) (b : Bool) :
    polyBits (bits ++ [b]) = polyBits bits + X ^ bits.length * C (bitVal b) := by
  rw [polyBits_append, polyBits_cons, polyBits_nil, mul_zero, add_zero]

theorem polyBits_and (b : Bool) (bits : List Bool) :
    polyBits (bits.map (b && ·)) = C (bitVal b) * polyBits bits := by
  ext k
  rw [coeff_C_mul, coeff_polyBits, coeff_polyBits]
  induction bits generalizing k with
  | nil => simp
  | cons x bits ih => cases k with
    | zero => cases b <;> simp
    | succ k => rw [List.map_cons, List.getD_cons_succ, List.getD_cons_succ, ih]

theorem polyBits_replicate_false (n : ℕ) : polyBits (List.replicate n false) = 0 := by
  induction n with
  | zero => rfl
  | succ n ih => rw [List.replicate_succ, polyBits_cons, ih, bitVal_false, C_0, mul_zero, add_zero]

theorem degree_polyBits_lt (bits : List Bool) : (polyBits bits).degree < bits.length := by
  refine (degree_lt_iff_coeff_zero _ _).mpr fun k high => ?_
  rw [coeff_polyBits, List.getD_eq_default _ _ high, bitVal_false]

/-- The bits of a word, as a list. -/
def bitsOf {w : ℕ} (x : BitVec w) : List Bool := (List.range w).map x.getLsbD

@[simp] theorem length_bitsOf {w : ℕ} (x : BitVec w) : (bitsOf x).length = w := by
  rw [bitsOf, List.length_map, List.length_range]

theorem bitsOf_getD {w : ℕ} (x : BitVec w) (k : ℕ) : (bitsOf x).getD k false = x.getLsbD k := by
  by_cases inside : k < w
  · rw [List.getD_eq_getElem _ _ (by rwa [length_bitsOf])]
    simp [bitsOf]
  · rw [List.getD_eq_default _ _ (by rw [length_bitsOf]; omega),
      BitVec.getLsbD_of_ge x k (by omega)]

theorem polyBits_bitsOf {w : ℕ} (x : BitVec w) : polyBits (bitsOf x) = toPoly x := by
  ext k
  rw [coeff_polyBits, coeff_toPoly, bitsOf_getD]

/-! ### Products -/

/-- The exclusive or of all bits of a list. -/
def xorAll (bits : List Bool) : Bool := bits.foldr (· ^^ ·) false

@[simp] theorem xorAll_nil : xorAll [] = false := rfl

@[simp] theorem xorAll_cons (b : Bool) (bits : List Bool) :
    xorAll (b :: bits) = (b ^^ xorAll bits) := rfl

theorem xorAll_append (xs ys : List Bool) : xorAll (xs ++ ys) = (xorAll xs ^^ xorAll ys) := by
  induction xs with
  | nil => simp
  | cons x xs ih => rw [List.cons_append, xorAll_cons, ih, xorAll_cons, Bool.xor_assoc]

theorem bitVal_xorAll (bits : List Bool) : bitVal (xorAll bits) = (bits.map bitVal).sum := by
  induction bits with
  | nil => rfl
  | cons b bits ih => rw [xorAll_cons, bitVal_xor, List.map_cons, List.sum_cons, ih]

theorem bitVal_and (a b : Bool) : bitVal (a && b) = bitVal a * bitVal b := by
  cases a <;> cases b <;> decide

/-- The products of bits that add up to one bit of a product. -/
def productColumn (xs ys : List Bool) (k : ℕ) : List Bool :=
  ((List.range xs.length).filter fun i => decide (i ≤ k) && decide (k - i < xs.length)).map
    fun i => xs.getD i false && ys.getD (k - i) false

/-- The bits of a product. -/
def productBits (xs ys : List Bool) : List Bool :=
  (List.range (2 * xs.length)).map fun k => xorAll (productColumn xs ys k)

/-- **The bits of a product of two lists.** -/
theorem polyBits_productBits (size : xs.length = ys.length) :
    polyBits (productBits xs ys) = polyBits xs * polyBits ys := by
  ext k
  have beyond : ∀ (bits : List Bool) {i : ℕ}, bits.length ≤ i → bits.getD i false = false :=
    fun bits i outside => List.getD_eq_default _ _ outside
  have term : ∀ i, bitVal (xs.getD i false && ys.getD (k - i) false) =
      (polyBits xs).coeff i * (polyBits ys).coeff (k - i) := fun i => by
    rw [bitVal_and, coeff_polyBits, coeff_polyBits]
  have column : bitVal (xorAll (productColumn xs ys k)) = (polyBits xs * polyBits ys).coeff k := by
    rw [bitVal_xorAll, productColumn, List.map_map, ← List.sum_toFinset _ (by
        exact (List.nodup_range).filter _), coeff_mul,
      Finset.Nat.sum_antidiagonal_eq_sum_range_succ_mk]
    refine (Finset.sum_congr rfl fun i _ => term i).trans (Finset.sum_subset ?_ ?_)
    · intro i member
      simp only [List.mem_toFinset, List.mem_filter, Bool.and_eq_true, decide_eq_true_eq] at member
      exact Finset.mem_range_succ_iff.mpr member.2.1
    · intro i member other
      have low : i ≤ k := Finset.mem_range_succ_iff.mp member
      rw [← term]
      simp only [List.mem_toFinset, List.mem_filter, List.mem_range, Bool.and_eq_true,
        decide_eq_true_eq, not_and, Nat.not_lt] at other
      by_cases inside : i < xs.length
      · rw [beyond ys (size ▸ other inside low), Bool.and_false, bitVal_false]
      · rw [beyond xs (Nat.le_of_not_lt inside), Bool.false_and, bitVal_false]
  rw [coeff_polyBits]
  by_cases inside : k < 2 * xs.length
  · rw [List.getD_eq_getElem _ _ (by simpa [productBits] using inside)]
    simpa [productBits] using column
  · rw [beyond _ (by simpa [productBits] using inside), bitVal_false, ← column, productColumn]
    have none : ((List.range xs.length).filter fun i =>
        decide (i ≤ k) && decide (k - i < xs.length)) = [] := by
      refine List.filter_eq_nil_iff.mpr fun i member => ?_
      rw [List.mem_range] at member
      simp only [Bool.and_eq_true, decide_eq_true_eq, not_and, Nat.not_lt]
      omega
    rw [none, List.map_nil, xorAll, List.foldr_nil, bitVal_false]

end Lib
