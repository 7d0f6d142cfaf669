/-
**The field of 2¹²⁸ elements** (`runtime/algebra/src/arch/generic.rs`,
`runtime/algebra/src/arch/x86_64.rs`, `compile/algebra/src/gf2_128.rs`).

An element is a word of 128 bits, a polynomial modulo `X^128 + X^7 + X^2 + X + 1`. The portable code
multiplies halves by integer products with holes, the compiler shifts and adds bit by bit, and the
code for processors with a carry-less multiplication adds up unreduced products in three words.

* `multiplications_agree` — **all of them compute the product of the quotient**, and the
  accumulators the sums of products.
-/

import Longfellow.Lib.BitList
import Mathlib.RingTheory.AdjoinRoot

namespace Longfellow

open Lib Polynomial

/-- An element: the coefficients of a polynomial, lowest first. -/
abbrev Gf2128 := BitVec 128

namespace Gf2128

/-- The low half. -/
def lo (x : Gf2128) : BitVec 64 := x.extractLsb' 0 64

/-- The high half. -/
def hi (x : Gf2128) : BitVec 64 := x.extractLsb' 64 64

/-! ### The portable code -/

/-- The low word of a carry-less product: bits four apart do not carry into each other. -/
def clmul64Lo (x y : BitVec 64) : BitVec 64 :=
  let m0 := 0x1111111111111111#64
  let m1 := 0x2222222222222222#64
  let m2 := 0x4444444444444444#64
  let m3 := 0x8888888888888888#64
  let x0 := x &&& m0
  let x1 := x &&& m1
  let x2 := x &&& m2
  let x3 := x &&& m3
  let y0 := y &&& m0
  let y1 := y &&& m1
  let y2 := y &&& m2
  let y3 := y &&& m3
  let z0 := x0 * y0 ^^^ x1 * y3 ^^^ x2 * y2 ^^^ x3 * y1
  let z1 := x0 * y1 ^^^ x1 * y0 ^^^ x2 * y3 ^^^ x3 * y2
  let z2 := x0 * y2 ^^^ x1 * y1 ^^^ x2 * y0 ^^^ x3 * y3
  let z3 := x0 * y3 ^^^ x1 * y2 ^^^ x2 * y1 ^^^ x3 * y0
  z0 &&& m0 ||| z1 &&& m1 ||| z2 &&& m2 ||| z3 &&& m3

/-- The high word: the low word of the reversed words. -/
def clmul64Hi (x y : BitVec 64) : BitVec 64 := (clmul64Lo x.reverse y.reverse).reverse >>> 1

/-- The low and the high word of a carry-less product. -/
def clmul64 (x y : BitVec 64) : BitVec 64 × BitVec 64 := (clmul64Lo x y, clmul64Hi x y)

/-- Reduce `a + b X^64`. -/
def reduce (a b : BitVec 64 × BitVec 64) : BitVec 64 × BitVec 64 :=
  let (a0, a1) := a
  let (b0, b1) := b
  let r0 := a0 ^^^ b1 ^^^ b1 <<< 1 ^^^ b1 <<< 2 ^^^ b1 <<< 7
  let r1 := a1 ^^^ b0 ^^^ b1 >>> 63 ^^^ b1 >>> 62 ^^^ b1 >>> 57
  (r0, r1)

/-- The sum of two words of two halves. -/
def xorPair (a b : BitVec 64 × BitVec 64) : BitVec 64 × BitVec 64 := (a.1 ^^^ b.1, a.2 ^^^ b.2)

/-- Three products of halves and two reductions, over a carry-less product of words. -/
def mulWith (clmul64 : BitVec 64 → BitVec 64 → BitVec 64 × BitVec 64) (x y : Gf2128) : Gf2128 :=
  let t0 := clmul64 x.lo y.lo
  let t2 := clmul64 x.hi y.hi
  let t1 := clmul64 (x.lo ^^^ x.hi) (y.lo ^^^ y.hi)
  let t1Xor := xorPair (xorPair t1 t0) t2
  let t1Red := reduce t1Xor t2
  let t0Red := reduce t0 t1Red
  t0Red.2 ++ t0Red.1

namespace Generic

/-- The portable multiplication. -/
def mul (x y : Gf2128) : Gf2128 := mulWith clmul64 x y

/-- Add a product to the accumulator. -/
def mac (acc : Gf2128) (x y : Gf2128) : Gf2128 := acc ^^^ mul x y

/-- The value of the accumulator. -/
def accumReduce (acc : Gf2128) : Gf2128 := acc

end Generic

/-! ### The compiler's code -/

namespace Compile

/-- One bit of the second factor. The state is the sum, the shifted first factor and the bits left
of the second one. -/
def mulStep (state : Gf2128 × Gf2128 × Gf2128) : Gf2128 × Gf2128 × Gf2128 :=
  let (res, tempA, curB) := state
  let res := if curB &&& 1#128 ≠ 0#128 then res ^^^ tempA else res
  let msb := tempA >>> 127 &&& 1#128
  let tempA := tempA <<< 1
  let tempA := if msb ≠ 0#128 then tempA ^^^ 0x87#128 else tempA
  (res, tempA, curB >>> 1)

/-- The multiplication by shifts and sums. -/
def mul (a b : Gf2128) : Gf2128 := (mulStep^[128] (0#128, a, b)).1

/-- The two words of the product that the processor computes. -/
def clmul64 (clmul : BitVec 64 → BitVec 64 → BitVec 128) (x y : BitVec 64) :
    BitVec 64 × BitVec 64 := (lo (clmul x y), hi (clmul x y))

/-- The multiplication on processors with a carry-less multiplication. -/
def mulPclmul (clmul : BitVec 64 → BitVec 64 → BitVec 128) (x y : Gf2128) : Gf2128 :=
  mulWith (clmul64 clmul) x y

end Compile

/-! ### The code for processors with a carry-less multiplication -/

namespace X86

variable (clmul : BitVec 64 → BitVec 64 → BitVec 128)

/-- The halves of a register. -/
def half (x : Gf2128) (high : Bool) : BitVec 64 := if high then x.hi else x.lo

/-- The instruction: bit 0 of the mask selects the half of the first operand, bit 4 that of the
second. -/
def mmClmulepi64 (x y : Gf2128) (imm : BitVec 8) : Gf2128 :=
  clmul (half x (imm.getLsbD 0)) (half y (imm.getLsbD 4))

/-- Reduce `z0 + z12 X^64 + z3 X^128`. -/
def reduce128 (z0 z12 z3 : Gf2128) : Gf2128 :=
  let poly := 0x87#128
  let tmp := z3 <<< 64
  let z12 := z12 ^^^ tmp
  let z3 := mmClmulepi64 clmul z3 poly 0x01#8
  let z12 := z12 ^^^ z3
  let tmp := z12 <<< 64
  let z0 := z0 ^^^ tmp
  let z12 := mmClmulepi64 clmul z12 poly 0x01#8
  z0 ^^^ z12

/-- The multiplication. -/
def mul (x y : Gf2128) : Gf2128 :=
  let z0 := mmClmulepi64 clmul x y 0x00#8
  let z1 := mmClmulepi64 clmul x y 0x01#8
  let z2 := mmClmulepi64 clmul x y 0x10#8
  let z3 := mmClmulepi64 clmul x y 0x11#8
  reduce128 clmul z0 (z1 ^^^ z2) z3

/-- A sum of products that is not reduced yet. -/
structure Accum where
  z0 : Gf2128 := 0#128
  z12 : Gf2128 := 0#128
  z3 : Gf2128 := 0#128
  deriving DecidableEq, Repr

/-- Add a product to the accumulator. -/
def mac (acc : Accum) (x y : Gf2128) : Accum :=
  let z0 := mmClmulepi64 clmul x y 0x00#8
  let z1 := mmClmulepi64 clmul x y 0x01#8
  let z2 := mmClmulepi64 clmul x y 0x10#8
  let z3 := mmClmulepi64 clmul x y 0x11#8
  ⟨acc.z0 ^^^ z0, acc.z12 ^^^ (z1 ^^^ z2), acc.z3 ^^^ z3⟩

/-- The value of the accumulator. -/
def accumReduce (acc : Accum) : Gf2128 := reduce128 clmul acc.z0 acc.z12 acc.z3

end X86

/-! ### Carry-less products of words -/

/-- The bits of a mask are the positions of one class. -/
def IsMask (m : BitVec 64) (i : ℕ) : Prop := ∀ p : Fin 64, m.getLsbD p = decide (p.val % 4 = i)

instance (m : BitVec 64) (i : ℕ) : Decidable (IsMask m i) := Nat.decidableForallFin _

theorem isMask0 : IsMask 0x1111111111111111#64 0 := by decide

theorem isMask1 : IsMask 0x2222222222222222#64 1 := by decide

theorem isMask2 : IsMask 0x4444444444444444#64 2 := by decide

theorem isMask3 : IsMask 0x8888888888888888#64 3 := by decide

variable {w : ℕ} {m m' : BitVec 64} {i j k : ℕ} {n : ℕ} {r : Gf2128}

theorem IsMask.bit (mask : IsMask m i) (low : k < 64) : m.getLsbD k = decide (k % 4 = i) :=
  mask ⟨k, low⟩

theorem IsMask.holed (mask : IsMask m i) (x : BitVec 64) : Holed (x &&& m).toNat i 16 := by
  intro p set
  rw [BitVec.testBit_toNat, BitVec.getLsbD_and, Bool.and_eq_true] at set
  have inside : p < 64 := BitVec.lt_of_getLsbD set.2
  have aligned : p % 4 = i := of_decide_eq_true ((mask.bit inside).symm.trans set.2)
  exact ⟨p / 4, by omega, by omega⟩

theorem IsMask.column (mask : IsMask m i) (small : i < 4) (x : BitVec 64) :
    column (x &&& m).toNat i 16 = column x.toNat i 16 := by
  refine Finset.sum_congr rfl fun u member => ?_
  rw [Finset.mem_range] at member
  rw [BitVec.testBit_toNat, BitVec.testBit_toNat, BitVec.getLsbD_and, mask.bit (by omega),
    decide_eq_true (by omega), Bool.and_true]

theorem bitVal_mul_masks (x y : BitVec 64) (mask : IsMask m i) (mask' : IsMask m' j)
    (small : i < 4) (small' : j < 4) (aligned : (i + j) % 4 = k % 4) (low : k < 64) :
    bitVal (((x &&& m) * (y &&& m')).getLsbD k) =
      (columnProduct x.toNat y.toNat 16 i j).coeff k := by
  rw [← bitVal_mul_holes (mask.holed x) (mask'.holed y) (mask.column small x)
    (mask'.column small' y) aligned low, ← BitVec.testBit_toNat, BitVec.toNat_mul,
    Nat.testBit_mod_two_pow, decide_eq_true low, Bool.true_and]

theorem coeff_mul_eq (x y : BitVec 64) (k : ℕ) :
    (toPoly x * toPoly y).coeff k = ∑ i ∈ Finset.range 4,
      (columnProduct x.toNat y.toNat 16 i ((k % 4 + 4 - i) % 4)).coeff k := by
  rw [toPoly_mul_eq_columns x y (show 64 = 4 * 16 from rfl), finsetSum_coeff]
  refine Finset.sum_congr rfl fun i member => ?_
  rw [Finset.mem_range] at member
  rw [finsetSum_coeff, Finset.sum_eq_single_of_mem ((k % 4 + 4 - i) % 4)
    (Finset.mem_range.mpr (Nat.mod_lt _ (by decide)))]
  intro j member' other
  rw [Finset.mem_range] at member'
  exact coeff_columnProduct_other fun aligned => other (by omega)

/-- The integer products of one class, added up. -/
def classSum (x y : BitVec 64) (n : Fin 4 → BitVec 64) : BitVec 64 :=
  (x &&& 0x1111111111111111#64) * (y &&& n 0) ^^^ (x &&& 0x2222222222222222#64) * (y &&& n 1) ^^^
    (x &&& 0x4444444444444444#64) * (y &&& n 2) ^^^ (x &&& 0x8888888888888888#64) * (y &&& n 3)

theorem bitVal_classSum (x y : BitVec 64) {n : Fin 4 → BitVec 64}
    (masks : ∀ i : Fin 4, IsMask (n i) ((k % 4 + 4 - i) % 4)) (low : k < 64) :
    bitVal ((classSum x y n).getLsbD k) = (toPoly x * toPoly y).coeff k := by
  have aligned : ∀ i < 4, (i + (k % 4 + 4 - i) % 4) % 4 = k % 4 := fun i small => by omega
  have inside : ∀ i, (k % 4 + 4 - i) % 4 < 4 := fun i => Nat.mod_lt _ (by decide)
  rw [coeff_mul_eq]
  simp only [classSum, BitVec.getLsbD_xor, bitVal_xor, Finset.sum_range_succ,
    Finset.sum_range_zero, zero_add]
  rw [bitVal_mul_masks x y isMask0 (masks 0) (by decide) (inside 0) (aligned 0 (by decide)) low,
    bitVal_mul_masks x y isMask1 (masks 1) (by decide) (inside 1) (aligned 1 (by decide)) low,
    bitVal_mul_masks x y isMask2 (masks 2) (by decide) (inside 2) (aligned 2 (by decide)) low,
    bitVal_mul_masks x y isMask3 (masks 3) (by decide) (inside 3) (aligned 3 (by decide)) low]
  rfl

/-- **The bits of the low word** are the low coefficients of the product. -/
theorem clmul64Lo_bit (x y : BitVec 64) (low : k < 64) :
    bitVal ((clmul64Lo x y).getLsbD k) = (toPoly x * toPoly y).coeff k := by
  have classes : k % 4 = 0 ∨ k % 4 = 1 ∨ k % 4 = 2 ∨ k % 4 = 3 := by omega
  simp only [clmul64Lo, BitVec.getLsbD_or, BitVec.getLsbD_and, isMask0.bit low, isMask1.bit low,
    isMask2.bit low, isMask3.bit low]
  rcases classes with here | here | here | here
  · rw [← bitVal_classSum x y (n := ![0x1111111111111111#64, 0x8888888888888888#64,
      0x4444444444444444#64, 0x2222222222222222#64]) (by rw [here]; decide) low]
    simp [here, classSum]
  · rw [← bitVal_classSum x y (n := ![0x2222222222222222#64, 0x1111111111111111#64,
      0x8888888888888888#64, 0x4444444444444444#64]) (by rw [here]; decide) low]
    simp [here, classSum]
  · rw [← bitVal_classSum x y (n := ![0x4444444444444444#64, 0x2222222222222222#64,
      0x1111111111111111#64, 0x8888888888888888#64]) (by rw [here]; decide) low]
    simp [here, classSum]
  · rw [← bitVal_classSum x y (n := ![0x8888888888888888#64, 0x4444444444444444#64,
      0x2222222222222222#64, 0x1111111111111111#64]) (by rw [here]; decide) low]
    simp [here, classSum]

theorem natDegree_word (x : BitVec 64) : (toPoly x).natDegree ≤ 63 := by
  refine natDegree_le_iff_coeff_eq_zero.mpr fun k high => ?_
  rw [coeff_toPoly, BitVec.getLsbD_of_ge x k (by omega), bitVal_false]

theorem natDegree_word_mul (x y : BitVec 64) : (toPoly x * toPoly y).natDegree ≤ 126 :=
  natDegree_mul_le.trans (Nat.add_le_add (natDegree_word x) (natDegree_word y))

theorem clmul64Hi_bit (x y : BitVec 64) (k : ℕ) :
    bitVal ((clmul64Hi x y).getLsbD k) = (toPoly x * toPoly y).coeff (64 + k) := by
  rw [clmul64Hi, BitVec.getLsbD_ushiftRight, BitVec.getLsbD_reverse, BitVec.getMsbD_eq_getLsbD]
  by_cases inside : k < 63
  · have mirrored : toPoly x.reverse * toPoly y.reverse = reflect 126 (toPoly x * toPoly y) := by
      rw [toPoly_reverse, toPoly_reverse, show (126 : ℕ) = 63 + 63 from rfl,
        reflect_mul _ _ (natDegree_word x) (natDegree_word y)]
    rw [decide_eq_true (by omega), Bool.true_and, clmul64Lo_bit _ _ (by omega), mirrored,
      coeff_reflect, revAt_le (by omega), show 126 - (64 - 1 - (1 + k)) = 64 + k by omega]
  · rw [decide_eq_false (by omega), Bool.false_and, bitVal_false]
    exact (natDegree_le_iff_coeff_eq_zero.mp (natDegree_word_mul x y) _ (by omega)).symm

/-- **The two words of a carry-less product.** -/
theorem clmul64_spec (x y : BitVec 64) :
    toPoly (clmul64 x y).1 + X ^ 64 * toPoly (clmul64 x y).2 = toPoly x * toPoly y := by
  ext k
  rw [clmul64, coeff_add, coeff_X_pow_mul', coeff_toPoly]
  by_cases low : k < 64
  · rw [if_neg (Nat.not_le_of_lt low), add_zero, clmul64Lo_bit x y low]
  · rw [if_pos (by omega), BitVec.getLsbD_of_ge _ k (by omega), bitVal_false, zero_add, coeff_toPoly,
      clmul64Hi_bit, Nat.add_sub_cancel' (by omega)]

/-! ### The quotient -/

/-- The modulus of the field, without its leading term. -/
noncomputable def tail : (ZMod 2)[X] := X ^ 7 + X ^ 2 + X + 1

/-- The modulus of the field. -/
noncomputable def modulus : (ZMod 2)[X] := X ^ 128 + tail

theorem degree_tail (high : 7 < n) : tail.degree < n := by
  have low : tail.degree ≤ (7 : ℕ) := by
    unfold tail
    compute_degree
    decide
  exact lt_of_le_of_lt low (Nat.cast_lt.mpr high)

theorem monic_add_tail (high : 7 < n) : (X ^ n + tail).Monic :=
  monic_X_pow_add (degree_tail high)

theorem degree_add_tail (high : 7 < n) :
    (X ^ n + tail : (ZMod 2)[X]).degree = (n : WithBot ℕ) := by
  rw [degree_add_eq_left_of_degree_lt, degree_X_pow]
  rw [degree_X_pow]
  exact degree_tail high

theorem modulus_eq : modulus = X ^ 128 + tail := by unfold modulus; rfl

theorem monic_modulus : modulus.Monic := modulus_eq ▸ monic_add_tail (by decide)

theorem toPoly_mod (high : 7 < n) (x : BitVec n) :
    toPoly x %ₘ (X ^ n + tail) = toPoly x := by
  refine (modByMonic_eq_self_iff (monic_add_tail high)).mpr ?_
  rw [degree_add_tail high]
  exact degree_toPoly_lt x

theorem polyBits_mod {bits : List Bool} (fits : bits.length ≤ 128) :
    polyBits bits %ₘ modulus = polyBits bits := by
  rw [modulus_eq]
  refine (modByMonic_eq_self_iff (monic_add_tail (by decide))).mpr ?_
  rw [degree_add_tail (by decide)]
  exact lt_of_lt_of_le (degree_polyBits_lt bits) (Nat.cast_le.mpr fits)

/-- The class of a polynomial. -/
noncomputable def classOf (p : (ZMod 2)[X]) : AdjoinRoot modulus := AdjoinRoot.mk modulus p

@[simp] theorem classOf_add (p q : (ZMod 2)[X]) : classOf (p + q) = classOf p + classOf q :=
  map_add _ p q

@[simp] theorem classOf_mul (p q : (ZMod 2)[X]) : classOf (p * q) = classOf p * classOf q :=
  map_mul _ p q

@[simp] theorem classOf_pow (p : (ZMod 2)[X]) (n : ℕ) : classOf (p ^ n) = classOf p ^ n :=
  map_pow _ p n

@[simp] theorem classOf_one : classOf 1 = 1 := map_one _

@[simp] theorem classOf_zero : classOf 0 = 0 := map_zero _

theorem toPoly_eq_mod {p : (ZMod 2)[X]} (same : classOf (toPoly r) = classOf p) :
    toPoly r = p %ₘ modulus := by
  have reduced : toPoly r %ₘ modulus = toPoly r := modulus_eq ▸ toPoly_mod (by decide) r
  rw [← reduced]
  exact modByMonic_eq_of_dvd_sub monic_modulus (AdjoinRoot.mk_eq_mk.mp same)

theorem two_eq_zero : (2 : AdjoinRoot modulus) = 0 := by
  have two : (2 : (ZMod 2)[X]) = 0 := by
    rw [← C_ofNat]
    exact C_eq_zero.mpr rfl
  have image := congrArg classOf two
  rwa [classOf_zero, classOf, map_ofNat] at image

theorem X_pow_128 : classOf X ^ 128 = classOf X ^ 7 + classOf X ^ 2 + classOf X + 1 := by
  have vanishes : classOf (X ^ 128) + classOf tail = 0 := by
    rw [← classOf_add, ← modulus_eq]
    exact AdjoinRoot.mk_self
  have same : -classOf tail = classOf tail := by linear_combination -classOf tail * two_eq_zero
  rw [← classOf_pow, eq_neg_of_add_eq_zero_left vanishes, same]
  simp only [tail, classOf_add, classOf_pow, classOf_one]

/-- The class of an element. -/
noncomputable def value (x : BitVec w) : AdjoinRoot modulus := classOf (toPoly x)

theorem value_injective : Function.Injective (value : Gf2128 → AdjoinRoot modulus) := by
  intro a b same
  have reduced : toPoly b = toPoly b %ₘ modulus := (modulus_eq ▸ toPoly_mod (by decide) b).symm
  exact toPoly_injective ((toPoly_eq_mod (r := a) same).trans reduced.symm)

theorem toPoly_halves (x : Gf2128) : toPoly x = toPoly x.lo + X ^ 64 * toPoly x.hi := by
  have size : 128 = 64 + 64 := by decide
  unfold lo hi
  exact toPoly_split x size

theorem value_halves (x : Gf2128) : value x = value x.lo + classOf X ^ 64 * value x.hi := by
  rw [value, toPoly_halves, classOf_add, classOf_mul, classOf_pow]
  rfl

theorem value_append (a b : BitVec 64) :
    value (a ++ b) = value b + classOf X ^ 64 * value a := by
  rw [value, toPoly_append, classOf_add, classOf_mul, classOf_pow]
  rfl

@[simp] theorem value_xor (x y : BitVec w) : value (x ^^^ y) = value x + value y := by
  rw [value, toPoly_xor, classOf_add]
  rfl

@[simp] theorem value_zero : value (0#w) = 0 := by
  rw [value, toPoly_zero, classOf_zero]

theorem value_shift (x : BitVec w) {s : ℕ} (bound : s ≤ w) :
    classOf X ^ s * value x = value (x <<< s) + classOf X ^ w * value (x >>> (w - s)) := by
  have shifted := congrArg classOf (X_pow_mul_toPoly x bound)
  rw [classOf_add, classOf_mul, classOf_mul, classOf_pow, classOf_pow] at shifted
  exact shifted

/-- The class of two words. -/
noncomputable def pairValue (a : BitVec 64 × BitVec 64) : AdjoinRoot modulus :=
  value a.1 + classOf X ^ 64 * value a.2

theorem pairValue_xor (a b : BitVec 64 × BitVec 64) :
    pairValue (xorPair a b) = pairValue a + pairValue b := by
  rw [pairValue, pairValue, pairValue, xorPair, value_xor, value_xor]
  ring

/-- **A reduction by 64 bits.** -/
theorem pairValue_reduce (a b : BitVec 64 × BitVec 64) :
    pairValue (reduce a b) = pairValue a + classOf X ^ 64 * pairValue b := by
  obtain ⟨a0, a1⟩ := a
  obtain ⟨b0, b1⟩ := b
  have one := value_shift b1 (show 1 ≤ 64 by decide)
  have two := value_shift b1 (show 2 ≤ 64 by decide)
  have seven := value_shift b1 (show 7 ≤ 64 by decide)
  have fold := X_pow_128
  simp only [pairValue, reduce, value_xor] at one two seven ⊢
  linear_combination -one - two - seven - value b1 * fold

/-! ### The algorithms -/

/-- A carry-less product of words in two words. -/
def IsProduct (clmul64 : BitVec 64 → BitVec 64 → BitVec 64 × BitVec 64) : Prop :=
  ∀ x y, toPoly (clmul64 x y).1 + X ^ 64 * toPoly (clmul64 x y).2 = toPoly x * toPoly y

section

variable {clmul64 : BitVec 64 → BitVec 64 → BitVec 64 × BitVec 64} (product : IsProduct clmul64)
include product

theorem IsProduct.pairValue (x y : BitVec 64) :
    pairValue (clmul64 x y) = value x * value y := by
  have same := congrArg classOf (product x y)
  rw [classOf_add, classOf_mul, classOf_mul, classOf_pow] at same
  exact same

/-- **Three products of halves.** -/
theorem mulWith_spec (x y : Gf2128) :
    value (mulWith clmul64 x y) = value x * value y := by
  have assembled : value (mulWith clmul64 x y) = Gf2128.pairValue (reduce (clmul64 x.lo y.lo) (reduce
      (xorPair (xorPair (clmul64 (x.lo ^^^ x.hi) (y.lo ^^^ y.hi)) (clmul64 x.lo y.lo))
        (clmul64 x.hi y.hi)) (clmul64 x.hi y.hi))) := value_append _ _
  rw [assembled, pairValue_reduce, pairValue_reduce, pairValue_xor, pairValue_xor,
    product.pairValue, product.pairValue, product.pairValue, value_xor, value_xor, value_halves x,
    value_halves y]
  generalize classOf X ^ 64 = shift
  linear_combination shift * (value x.lo * value y.lo + value x.hi * value y.hi) * two_eq_zero

end

theorem value_poly (high : 7 < n) {x : BitVec n} (bits : x = BitVec.twoPow n 7 ^^^
    BitVec.twoPow n 2 ^^^ BitVec.twoPow n 1 ^^^ BitVec.twoPow n 0) :
    value x = classOf X ^ 128 := by
  rw [bits, value_xor, value_xor, value_xor, value, value, value, value, toPoly_twoPow high,
    toPoly_twoPow (by omega), toPoly_twoPow (by omega), toPoly_twoPow (by omega), X_pow_128]
  simp only [classOf_pow, pow_one, pow_zero, classOf_one]

theorem value_bit (b : Bool) : classOf (C (bitVal b)) = if b then 1 else 0 := by
  cases b
  · simp
  · simp

theorem value_double (x : Gf2128) :
    value (if x >>> 127 &&& 1#128 ≠ 0#128 then x <<< 1 ^^^ 0x87#128 else x <<< 1) =
      classOf X * value x := by
  have shifted := value_shift x (show 1 ≤ 128 by decide)
  have top : value (x >>> (128 - 1)) = if x.getLsbD 127 then 1 else 0 := by
    rw [value, toPoly_shiftRight_last, value_bit]
  have bit : x >>> 127 &&& 1#128 ≠ 0#128 ↔ x.getLsbD 127 = true := by
    rw [and_one_ne_zero _ (by decide), BitVec.getLsbD_ushiftRight]
  rw [top, pow_one] at shifted
  by_cases set : x.getLsbD 127 = true
  · rw [if_pos (bit.mpr set), value_xor, value_poly (by decide) (by decide : 0x87#128 = _), shifted,
      if_pos set, mul_one]
  · rw [if_neg (mt bit.mp set), shifted, if_neg set, mul_zero, add_zero]

theorem mulStep_spec (res tempA curB : Gf2128) :
    let next := Compile.mulStep (res, tempA, curB)
    next.2.2 = curB >>> 1 ∧
      value next.1 + value next.2.1 * value next.2.2 = value res + value tempA * value curB := by
  refine ⟨rfl, ?_⟩
  have bits : value curB =
      (if curB.getLsbD 0 then 1 else 0 : AdjoinRoot modulus) + classOf X * value (curB >>> 1) := by
    have split := congrArg classOf (toPoly_shiftRight_one curB)
    rw [classOf_add, classOf_mul, value_bit] at split
    exact split
  have bit : curB &&& 1#128 ≠ 0#128 ↔ curB.getLsbD 0 = true := and_one_ne_zero _ (by decide)
  have double : value (Compile.mulStep (res, tempA, curB)).2.1 = classOf X * value tempA :=
    value_double tempA
  show value (if curB &&& 1#128 ≠ 0#128 then res ^^^ tempA else res) +
    value (Compile.mulStep (res, tempA, curB)).2.1 * value (curB >>> 1) = _
  rw [double, bits]
  by_cases set : curB.getLsbD 0 = true
  · rw [if_pos (bit.mpr set), if_pos set, value_xor]
    ring
  · rw [if_neg (mt bit.mp set), if_neg set]
    ring

/-- **The multiplication by shifts and sums.** -/
theorem shiftXor_spec (a b : Gf2128) : value (Compile.mul a b) = value a * value b := by
  have run : ∀ k, (Compile.mulStep^[k] (0#128, a, b)).2.2 = b >>> k ∧
      value (Compile.mulStep^[k] (0#128, a, b)).1 + value (Compile.mulStep^[k] (0#128, a, b)).2.1 *
        value (Compile.mulStep^[k] (0#128, a, b)).2.2 = value a * value b := by
    intro k
    induction k with
    | zero => exact ⟨rfl, by rw [Function.iterate_zero_apply, value_zero, zero_add]⟩
    | succ k ih =>
      rw [Function.iterate_succ_apply']
      obtain ⟨left, same⟩ := mulStep_spec (Compile.mulStep^[k] (0#128, a, b)).1
        (Compile.mulStep^[k] (0#128, a, b)).2.1 (Compile.mulStep^[k] (0#128, a, b)).2.2
      exact ⟨by rw [left, ih.1, ← BitVec.shiftRight_add], same.trans ih.2⟩
  obtain ⟨left, same⟩ := run 128
  rw [left, BitVec.ushiftRight_eq_zero (le_refl 128), value_zero, mul_zero, add_zero] at same
  exact same

/-! ### Unreduced sums -/

section Lazy

variable {clmul : BitVec 64 → BitVec 64 → BitVec 128}

/-- The instruction is a carry-less product of words. -/
def IsClmul (clmul : BitVec 64 → BitVec 64 → BitVec 128) : Prop :=
  ∀ x y, toPoly (clmul x y) = toPoly x * toPoly y

theorem IsClmul.isProduct (intrinsic : IsClmul clmul) : IsProduct (Compile.clmul64 clmul) := by
  intro x y
  rw [← intrinsic x y, toPoly_halves (clmul x y)]
  simp only [Compile.clmul64]

theorem IsClmul.value_eq (intrinsic : IsClmul clmul) (x y : BitVec 64) :
    value (clmul x y) = value x * value y := by
  rw [value, intrinsic, classOf_mul]
  rfl

theorem value_shift_half (x : Gf2128) :
    value (x <<< 64) + classOf X ^ 128 * value x.hi = classOf X ^ 64 * value x := by
  have high : x >>> (128 - 64) = x.hi.setWidth 128 := by
    refine BitVec.eq_of_getLsbD_eq fun i inside => ?_
    rw [BitVec.getLsbD_ushiftRight, BitVec.getLsbD_setWidth, hi, BitVec.getLsbD_extractLsb',
      decide_eq_true inside, Bool.true_and]
    by_cases low : i < 64
    · rw [decide_eq_true low, Bool.true_and]
    · rw [decide_eq_false low, Bool.false_and, BitVec.getLsbD_of_ge x _ (by omega)]
  have same : value (x.hi.setWidth 128) = value x.hi := by
    rw [value, toPoly_setWidth _ (by decide)]
    rfl
  rw [value_shift x (by decide), high, same]

/-- **The reduction of three words.** -/
theorem reduce128_spec (intrinsic : IsClmul clmul) (z0 z12 z3 : Gf2128) :
    value (X86.reduce128 clmul z0 z12 z3) =
      value z0 + classOf X ^ 64 * value z12 + classOf X ^ 128 * value z3 := by
  have poly : value (lo 0x87#128) = classOf X ^ 128 :=
    value_poly (show 7 < 64 by decide) (by decide)
  have fold : ∀ z : Gf2128, value (X86.mmClmulepi64 clmul z 0x87#128 0x01#8) =
      classOf X ^ 128 * value z.hi := fun z => by
    rw [mul_comm, ← poly]
    exact intrinsic.value_eq _ _
  have first := value_shift_half z3
  have second := value_shift_half (z12 ^^^ z3 <<< 64 ^^^ X86.mmClmulepi64 clmul z3 0x87#128 0x01#8)
  have square : classOf X ^ 64 * classOf X ^ 64 = classOf X ^ 128 := (pow_add _ 64 64).symm
  simp only [X86.reduce128, value_xor, fold] at second ⊢
  generalize classOf X ^ 128 = top at first second square ⊢
  generalize classOf X ^ 64 = shift at first second square ⊢
  linear_combination second + shift * first + value z3 * square

/-- The class of an accumulator. -/
noncomputable def accumValue (acc : X86.Accum) : AdjoinRoot modulus :=
  value acc.z0 + classOf X ^ 64 * value acc.z12 + classOf X ^ 128 * value acc.z3

/-- **A step of the accumulator.** -/
theorem accumValue_mac (intrinsic : IsClmul clmul) (acc : X86.Accum) (x y : Gf2128) :
    accumValue (X86.mac clmul acc x y) = accumValue acc + value x * value y := by
  have low : value (X86.mmClmulepi64 clmul x y 0x00#8) = value x.lo * value y.lo :=
    intrinsic.value_eq _ _
  have left : value (X86.mmClmulepi64 clmul x y 0x01#8) = value x.hi * value y.lo :=
    intrinsic.value_eq _ _
  have right : value (X86.mmClmulepi64 clmul x y 0x10#8) = value x.lo * value y.hi :=
    intrinsic.value_eq _ _
  have high : value (X86.mmClmulepi64 clmul x y 0x11#8) = value x.hi * value y.hi :=
    intrinsic.value_eq _ _
  have square : classOf X ^ 64 * classOf X ^ 64 = classOf X ^ 128 := (pow_add _ 64 64).symm
  simp only [accumValue, X86.mac, value_xor, low, left, right, high]
  rw [value_halves x, value_halves y]
  generalize classOf X ^ 128 = top at square ⊢
  generalize classOf X ^ 64 = shift at square ⊢
  linear_combination -(value x.hi * value y.hi) * square

theorem x86_mul_eq (x y : Gf2128) :
    X86.mul clmul x y = X86.accumReduce clmul (X86.mac clmul {} x y) := by
  simp only [X86.mul, X86.accumReduce, X86.mac, BitVec.zero_xor]

theorem accumValue_zero : accumValue {} = 0 := by
  rw [accumValue, value_zero, mul_zero, mul_zero, add_zero, add_zero]

theorem x86_mul_spec (intrinsic : IsClmul clmul) (x y : Gf2128) :
    value (X86.mul clmul x y) = value x * value y := by
  rw [x86_mul_eq, X86.accumReduce, reduce128_spec intrinsic]
  refine (accumValue_mac intrinsic {} x y).trans ?_
  rw [accumValue_zero, zero_add]

end Lazy

theorem portable_mul_spec (x y : Gf2128) : value (Generic.mul x y) = value x * value y :=
  mulWith_spec clmul64_spec x y

/-- The product of two elements: the remainder of the product of their polynomials. -/
noncomputable def product (a b : Gf2128) : (ZMod 2)[X] := (toPoly a * toPoly b) %ₘ modulus

theorem toPoly_eq_product {a b : Gf2128} (same : value r = value a * value b) :
    toPoly r = product a b :=
  toPoly_eq_mod (same.trans (classOf_mul _ _).symm)

theorem classOf_sum_product (pairs : List (Gf2128 × Gf2128)) :
    classOf (pairs.map fun pair => product pair.1 pair.2).sum =
      (pairs.map fun pair => value pair.1 * value pair.2).sum := by
  have each : ∀ a b : Gf2128, classOf (product a b) = value a * value b := fun a b => by
    rw [← toPoly_eq_product (portable_mul_spec a b)]
    exact portable_mul_spec a b
  induction pairs with
  | nil => exact classOf_zero
  | cons pair pairs ih => rw [List.map_cons, List.sum_cons, classOf_add, each, ih, List.map_cons,
      List.sum_cons]

theorem foldl_value {A : Type} (measure : A → AdjoinRoot modulus) {mac : A → Gf2128 → Gf2128 → A}
    (step : ∀ acc x y, measure (mac acc x y) = measure acc + value x * value y) (acc : A)
    (pairs : List (Gf2128 × Gf2128)) :
    measure (pairs.foldl (fun acc pair => mac acc pair.1 pair.2) acc) =
      measure acc + (pairs.map fun pair => value pair.1 * value pair.2).sum := by
  induction pairs generalizing acc with
  | nil => simp
  | cons pair pairs ih =>
    rw [List.foldl_cons, ih, step, List.map_cons, List.sum_cons]
    ring

theorem eq_of_value {p : (ZMod 2)[X]} (same : value r = classOf p)
    (reduced : p %ₘ modulus = p) : toPoly r = p := (toPoly_eq_mod same).trans reduced

theorem mod_sum_product (pairs : List (Gf2128 × Gf2128)) :
    (pairs.map fun pair => product pair.1 pair.2).sum %ₘ modulus =
      (pairs.map fun pair => product pair.1 pair.2).sum := by
  induction pairs with
  | nil => exact zero_modByMonic _
  | cons pair pairs ih =>
    have one : product pair.1 pair.2 %ₘ modulus = product pair.1 pair.2 :=
      (modByMonic_eq_self_iff monic_modulus).mpr (degree_modByMonic_lt _ monic_modulus)
    rw [List.map_cons, List.sum_cons, add_modByMonic, one, ih]

/-- **All multiplications compute the product of the quotient**, for all elements, and every
accumulator the sum of the products, for all sequences of products. -/
theorem multiplications_agree {clmul : BitVec 64 → BitVec 64 → BitVec 128}
    (intrinsic : ∀ x y, toPoly (clmul x y) = toPoly x * toPoly y) :
    (∀ a b : Gf2128, toPoly (Generic.mul a b) = (toPoly a * toPoly b) %ₘ modulus ∧
      Compile.mul a b = Generic.mul a b ∧ Compile.mulPclmul clmul a b = Generic.mul a b ∧
      X86.mul clmul a b = Generic.mul a b) ∧
    ∀ pairs : List (Gf2128 × Gf2128),
      let sum := (pairs.map fun pair => (toPoly pair.1 * toPoly pair.2) %ₘ modulus).sum
      toPoly (Generic.accumReduce
        (pairs.foldl (fun acc pair => Generic.mac acc pair.1 pair.2) 0#128)) = sum ∧
      toPoly (X86.accumReduce clmul
        (pairs.foldl (fun acc pair => X86.mac clmul acc pair.1 pair.2) {})) = sum := by
  refine ⟨fun a b => ?_, fun pairs => ?_⟩
  · have portable := toPoly_eq_product (portable_mul_spec a b)
    have agrees : ∀ {r : Gf2128}, value r = value a * value b → r = Generic.mul a b := fun same =>
      toPoly_injective ((toPoly_eq_product same).trans portable.symm)
    exact ⟨portable, agrees (shiftXor_spec a b), agrees (mulWith_spec (IsClmul.isProduct intrinsic) a b),
      agrees (x86_mul_spec intrinsic a b)⟩
  · have step : ∀ acc x y : Gf2128, value (Generic.mac acc x y) = value acc + value x * value y :=
      fun acc x y => by rw [Generic.mac, value_xor, portable_mul_spec]
    have portable := foldl_value value step 0#128 pairs
    have lazily := foldl_value accumValue (accumValue_mac intrinsic) {} pairs
    rw [value_zero, zero_add, ← classOf_sum_product] at portable
    rw [accumValue_zero, zero_add, ← classOf_sum_product] at lazily
    exact ⟨eq_of_value portable (mod_sum_product pairs),
      eq_of_value ((reduce128_spec intrinsic _ _ _).trans lazily) (mod_sum_product pairs)⟩

/-- The portable product as the instruction. -/
theorem multiplications_agree_portable :
    let clmul : BitVec 64 → BitVec 64 → BitVec 128 := fun x y => (clmul64 x y).2 ++ (clmul64 x y).1
    X86.mul clmul 3#128 0xE#128 = Generic.mul 3#128 0xE#128 := by
  intro clmul
  have intrinsic : ∀ x y, toPoly (clmul x y) = toPoly x * toPoly y := fun x y =>
    (toPoly_append _ _).trans (clmul64_spec x y)
  exact ((multiplications_agree intrinsic).1 3#128 0xE#128).2.2.2

end Gf2128

end Longfellow
