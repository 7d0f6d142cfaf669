/-
**The P-256 reduction** (`runtime/algebra/src/p256/p256_64.rs`,
`runtime/algebra/src/p256/p256_32.rs`).

The modulus of P-256 is `2^256 - 2^224 + 2^192 + 2^96 - 1`, so that a multiple of it is added with
one subtraction and one addition of shifted limbs. The subtraction may borrow from above the window;
the addition then carries as much back.

* `p256ReductionStep_reduces` — **the step adds a multiple of the modulus**, and the borrow is the
  carry;
* `montgomeryMul_eq_generic` — **the product is the generic product**, and no carry is lost.
-/

import Longfellow.Algebra.FpRefinement

namespace Longfellow.P256

open Lib Limb FpGeneric

variable {n : ℕ}

/-! ### The code -/

/-- The words of the modulus. -/
def modulus : List (BitVec 64) :=
  [0xffffffffffffffff, 0x00000000ffffffff, 0x0000000000000000, 0xffffffff00000001]

/-- The limbs of `r (1 + 2^224)`, and the limbs of `r (2^96 + 2^192 + 2^256)` from the second on. -/
def terms64 (r : BitVec 64) : List (BitVec 64) × List (BitVec 64) :=
  let rLo := r <<< 32
  let rHi := r >>> 32
  ([r, 0, 0, rLo, rHi, 0], [rLo, rHi, r, r])

/-- The same in limbs of 32 bits, the second number from the fourth limb on. -/
def terms32 (r : BitVec 32) : List (BitVec 32) × List (BitVec 32) :=
  ([r, 0, 0, 0, 0, 0, 0, r, 0, 0], [r, 0, 0, r, 0, r])

/-- What a step subtracts, and what it adds. -/
def terms : (width : Width) → BitVec width.bits → List (BitVec width.bits) × List (BitVec width.bits)
  | .limb64 => terms64
  | .limb32 => terms32

/-- Where the addition starts. -/
def addStart : Width → ℕ
  | .limb64 => 1
  | .limb32 => 3

/-- One reduction step on a window. -/
def p256ReductionStep (width : Width) (a : List (BitVec width.bits)) :
    Exec String (List (BitVec width.bits)) := do
  let r ← getAt a 0
  let (a, _) := subLimb a (terms width r).1
  accum a (addStart width) (terms width r).2

/-- The product of `L` rounds, for the given accumulations and reduction step. The source writes the
rounds out. -/
def montgomeryMulWith (L : ℕ)
    (mulAccumZero mulAccum : List (BitVec n) → ℕ → BitVec n → List (BitVec n) →
      Exec String (List (BitVec n)))
    (reductionStep : List (BitVec n) → Exec String (List (BitVec n))) (a b negm : List (BitVec n)) :
    Exec String (List (BitVec n)) := do
  let t := List.replicate (2 * L + 1) 0#n
  let t ← mulAccumZero t 0 (← getAt a 0) b
  let t ← withSlice t 0 (L + 2) reductionStep
  let t ← (List.range' 1 (L - 1)).foldlM (fun t i => do
    let t ← setAt t (i + L + 1) 0#n
    let t ← mulAccum t i (← getAt a i) b
    withSlice t i (i + L + 2) reductionStep) t
  let res ← slice t L (2 * L)
  let top ← getAt t (2 * L)
  pure (maybeMinusM res top negm)

/-- The specialised product. -/
def montgomeryMul (width : Width) (a b negm : List (BitVec width.bits)) :
    Exec String (List (BitVec width.bits)) :=
  montgomeryMulWith (4 * width.perU64) mulAccumZero mulAccum (p256ReductionStep width) a b negm

/-! ### The same with every carry checked -/

/-- Add the product of a limb and limbs; a carry out of the buffer is a panic. -/
def mulAccumExact (a : List (BitVec n)) (start : ℕ) (x : BitVec n) (y : List (BitVec n)) :
    Exec String (List (BitVec n)) := do
  let (l, h) := mulhl x y
  let (a, out) ← accumOut a start l
  ensure (out = false) "carry lost"
  let (a, out) ← accumOut a (start + 1) h
  ensure (out = false) "carry lost"
  pure a

/-- The same into cells that hold zero. -/
def mulAccumZeroExact (a : List (BitVec n)) (start : ℕ) (x : BitVec n) (y : List (BitVec n)) :
    Exec String (List (BitVec n)) := do
  let (l, h) := mulhl x y
  let zeros ← slice a start (start + y.length)
  ensure (zeros = List.replicate y.length 0#n) "limbs lost"
  let a := a.take start ++ l ++ a.drop (start + y.length)
  let (a, out) ← accumOut a (start + 1) h
  ensure (out = false) "carry lost"
  pure a

/-- The reduction step; a borrow that the addition does not carry back is a panic. -/
def p256ReductionStepExact (width : Width) (a : List (BitVec width.bits)) :
    Exec String (List (BitVec width.bits)) := do
  let r ← getAt a 0
  let (a, borrow) := subLimb a (terms width r).1
  let (a, carry) ← accumOut a (addStart width) (terms width r).2
  ensure (ofBool width.bits carry = borrow) "carry lost"
  pure a

/-- The specialised product, which panics when a carry or a borrow is lost. -/
def montgomeryMulExact (width : Width) (a b negm : List (BitVec width.bits)) :
    Exec String (List (BitVec width.bits)) :=
  montgomeryMulWith (4 * width.perU64) mulAccumZeroExact mulAccumExact
    (p256ReductionStepExact width) a b negm

/-! ### What accumulations and reduction steps do -/

/-- An accumulation adds the product of a limb and limbs where there is room. -/
def Accumulates (op : List (BitVec n) → ℕ → BitVec n → List (BitVec n) →
    Exec String (List (BitVec n))) (P : List (BitVec n) → ℕ → List (BitVec n) → Prop) : Prop :=
  ∀ a k x y, P a k y → k + y.length + 1 ≤ a.length →
    wordsVal a + (2 ^ n) ^ k * (x.toNat * wordsVal y) < (2 ^ n) ^ a.length →
    ∃ sum, op a k x y = .ok sum ∧ sum.length = a.length ∧
      wordsVal sum = wordsVal a + (2 ^ n) ^ k * (x.toNat * wordsVal y)

/-- A reduction step adds the multiple of the modulus that clears the low limb. -/
def Reduces (L m : ℕ) (step : List (BitVec n) → Exec String (List (BitVec n))) : Prop :=
  ∀ w : List (BitVec n), w.length = L + 2 → wordsVal w + 2 ^ n * m ≤ (2 ^ n) ^ (L + 2) →
    ∃ w' q, step w = .ok w' ∧ w'.length = L + 2 ∧ q < 2 ^ n ∧ wordsVal w' = wordsVal w + q * m ∧
      2 ^ n ∣ wordsVal w'

/-- The cells that receive the low halves hold zero. -/
def Cleared (a : List (BitVec n)) (k : ℕ) (y : List (BitVec n)) : Prop :=
  (a.drop k).take y.length = List.replicate y.length 0#n

theorem mulAccum_accumulates (positive : 0 < n) :
    Accumulates (mulAccum (n := n)) fun _ _ _ => True :=
  fun _ _ x _ _ bound fits => mulAccum_returns positive x bound fits

theorem mulAccumZero_accumulates (positive : 0 < n) :
    Accumulates (mulAccumZero (n := n)) Cleared :=
  fun _ _ x _ zero bound fits => mulAccumZero_returns positive x bound zero fits

theorem mulAccumExact_accumulates (positive : 0 < n) :
    Accumulates (mulAccumExact (n := n)) fun _ _ _ => True := by
  intro a k x y _ bound fits
  obtain ⟨lowLength, highLength⟩ := mulhl_length x y
  have total := mulhl_shifted k x y
  obtain ⟨low, addLow, -, lowSize, lowVal⟩ := accumOut_of_fits positive
    (a := a) (b := (mulhl x y).1) (k := k) (by omega) (by omega)
  obtain ⟨sum, addHigh, -, sumSize, sumVal⟩ := accumOut_of_fits positive
    (a := low) (b := (mulhl x y).2) (k := k + 1) (by omega) (by rw [lowSize, lowVal]; omega)
  refine ⟨sum, ?_, sumSize.trans lowSize, by rw [sumVal, lowVal]; omega⟩
  simp only [mulAccumExact, addLow, ok_bind, addHigh, ensure_of True.intro, pure_eq_ok]

theorem mulAccumZeroExact_accumulates (positive : 0 < n) :
    Accumulates (mulAccumZeroExact (n := n)) Cleared := by
  intro a k x y zero bound fits
  obtain ⟨lowLength, highLength⟩ := mulhl_length x y
  have total := mulhl_shifted k x y
  obtain ⟨size, copied⟩ := copied_val (a := a) (l := (mulhl x y).1) (k := k) (by omega)
    (by rw [lowLength]; exact zero)
  rw [lowLength] at size copied
  obtain ⟨sum, addHigh, -, sumSize, sumVal⟩ := accumOut_of_fits positive
    (a := a.take k ++ (mulhl x y).1 ++ a.drop (k + y.length)) (b := (mulhl x y).2) (k := k + 1)
    (by omega) (by rw [size, copied]; omega)
  have found : slice (ε := String) a k (k + y.length) = .ok (List.replicate y.length 0#n) := by
    rw [slice_of_le (by omega) (by omega), Nat.add_sub_cancel_left]
    exact congrArg Except.ok zero
  refine ⟨sum, ?_, sumSize.trans size, by rw [sumVal, copied]; omega⟩
  simp only [mulAccumZeroExact, found, ok_bind, addHigh, ensure_of True.intro, pure_eq_ok]

/-! ### The reduction step -/

theorem modulus_val : wordsVal modulus + 2 ^ 224 + 1 = 2 ^ 256 + 2 ^ 192 + 2 ^ 96 := by decide

theorem terms64_val (r : BitVec 64) :
    wordsVal (terms64 r).1 = r.toNat * (2 ^ 224 + 1) ∧
      2 ^ 64 * wordsVal (terms64 r).2 = r.toNat * (2 ^ 256 + 2 ^ 192 + 2 ^ 96) := by
  have bound := r.isLt
  simp only [terms64, wordsVal_cons, wordsVal_nil, BitVec.toNat_shiftLeft, BitVec.toNat_ushiftRight,
    Nat.shiftLeft_eq, Nat.shiftRight_eq_div_pow, BitVec.ofNat_eq_ofNat, BitVec.toNat_zero]
  omega

theorem terms32_val (r : BitVec 32) :
    wordsVal (terms32 r).1 = r.toNat * (2 ^ 224 + 1) ∧
      (2 ^ 32) ^ 3 * wordsVal (terms32 r).2 = r.toNat * (2 ^ 256 + 2 ^ 192 + 2 ^ 96) := by
  simp only [terms32, wordsVal_cons, wordsVal_nil, BitVec.ofNat_eq_ofNat, BitVec.toNat_zero]
  omega

section

variable (width : Width)
include width

theorem terms_val (r : BitVec width.bits) :
    wordsVal (terms width r).1 = r.toNat * (2 ^ 224 + 1) ∧
      (2 ^ width.bits) ^ addStart width * wordsVal (terms width r).2 =
        r.toNat * (2 ^ 256 + 2 ^ 192 + 2 ^ 96) := by
  cases width with
  | limb32 => exact terms32_val r
  | limb64 => exact terms64_val r

theorem terms_length (r : BitVec width.bits) :
    (terms width r).1.length = 4 * width.perU64 + 2 ∧
      addStart width + (terms width r).2.length ≤ 4 * width.perU64 + 2 := by
  cases width with
  | limb32 => exact ⟨rfl, show 3 + 6 ≤ 10 by decide⟩
  | limb64 => exact ⟨rfl, show 1 + 4 ≤ 6 by decide⟩

theorem radix_dvd_modulus : 2 ^ width.bits ∣ wordsVal modulus + 1 := by
  cases width <;> decide

/-- **The step adds a multiple of the modulus**: the borrow that leaves the window is the carry that
leaves it. -/
theorem p256ReductionStep_returns {w : List (BitVec width.bits)}
    (size : w.length = 4 * width.perU64 + 2)
    (room : wordsVal w + 2 ^ width.bits * wordsVal modulus ≤
      (2 ^ width.bits) ^ (4 * width.perU64 + 2)) :
    ∃ w' q, p256ReductionStep width w = .ok w' ∧ p256ReductionStepExact width w = .ok w' ∧
      w'.length = 4 * width.perU64 + 2 ∧ q < 2 ^ width.bits ∧
      wordsVal w' = wordsVal w + q * wordsVal modulus ∧ 2 ^ width.bits ∣ wordsVal w' := by
  have positive : 0 < width.bits := Nat.zero_lt_of_lt width.wide
  cases w with
  | nil => simp at size
  | cons r w =>
    obtain ⟨subVal, addVal⟩ := terms_val width r
    obtain ⟨subLength, addLength⟩ := terms_length width r
    have sizes := size.trans subLength.symm
    have length := subLimb_length sizes
    have diff := subLimb_val positive sizes
    obtain ⟨sum, carry, ranExact, ran, sumSize, sumVal⟩ := accumOut_returns positive
      (a := (subLimb (r :: w) (terms width r).1).1) (b := (terms width r).2) (k := addStart width)
      (by omega)
    have sumLow := wordsVal_lt sum
    rw [length] at sumSize sumVal
    rw [sumSize] at sumLow
    rw [size] at diff sumVal sumLow
    have low := Nat.mul_lt_mul_of_pos_right r.isLt (show 0 < wordsVal modulus by decide)
    have total : r.toNat * (2 ^ 256 + 2 ^ 192 + 2 ^ 96) =
        r.toNat * wordsVal modulus + r.toNat * (2 ^ 224 + 1) := by
      rw [← Nat.mul_add, ← modulus_val, Nat.add_assoc]
    rw [subVal] at diff
    rw [addVal, total] at sumVal
    -- The number in the window fits, so that the borrow and the carry have to agree.
    obtain ⟨borrow, isBorrow⟩ : ∃ borrow, (subLimb (r :: w) (terms width r).1).2 =
      ofBool width.bits borrow := ⟨_, rfl⟩
    rw [isBorrow, ofBool_toNat positive] at diff
    have agree : carry = borrow ∧
        wordsVal sum = wordsVal (r :: w) + r.toNat * wordsVal modulus := by
      generalize (2 ^ width.bits) ^ (4 * width.perU64 + 2) = top at *
      cases carry <;> cases borrow <;>
        simp only [Bool.toNat_true, Bool.toNat_false, Nat.mul_one, Nat.mul_zero, true_and,
          reduceCtorEq, false_and] at diff sumVal ⊢ <;> omega
    refine ⟨sum, r.toNat, ?_, ?_, sumSize.trans size, r.isLt, agree.2, ?_⟩
    · rw [p256ReductionStep, getAt_of_lt (Nat.zero_lt_succ _), ok_bind]
      exact ran
    · rw [p256ReductionStepExact, getAt_of_lt (Nat.zero_lt_succ _), ok_bind]
      simp only [List.getElem_cons_zero, ranExact, ok_bind, isBorrow, agree.1,
        ensure_of True.intro, pure_eq_ok]
    · obtain ⟨quotient, isQuotient⟩ := radix_dvd_modulus width
      refine ⟨wordsVal w + r.toNat * quotient, ?_⟩
      rw [agree.2, wordsVal_cons]
      linear_combination r.toNat * isQuotient

theorem p256ReductionStep_reduces :
    Reduces (4 * width.perU64) (wordsVal modulus) (p256ReductionStep width) := fun w size room => by
  obtain ⟨w', q, ran, -, facts⟩ := p256ReductionStep_returns width size room
  exact ⟨w', q, ran, facts⟩

theorem p256ReductionStepExact_reduces :
    Reduces (4 * width.perU64) (wordsVal modulus) (p256ReductionStepExact width) :=
  fun w size room => by
    obtain ⟨w', q, -, ran, facts⟩ := p256ReductionStep_returns width size room
    exact ⟨w', q, ran, facts⟩

end

/-! ### The product -/

section

variable {L m : ℕ} {modulo negm : List (BitVec n)} {mPrime : BitVec n}
  (constants : Constants L modulo negm mPrime m)
include constants

variable {op : List (BitVec n) → ℕ → BitVec n → List (BitVec n) → Exec String (List (BitVec n))}
  {step : List (BitVec n) → Exec String (List (BitVec n))}

theorem round_returns {size i : ℕ} {a b t : List (BitVec n)} {x : BitVec n}
    (round : Rounds size m a (wordsVal b) i t) (room : i + L + 2 ≤ size) (index : a[i]? = some x)
    (right : b.length = L) (canonical : wordsVal b < m)
    {P : List (BitVec n) → ℕ → List (BitVec n) → Prop} (accumulates : Accumulates op P)
    (ready : P t i b) (reduces : Reduces L m step) :
    ∃ t', (op t i x b >>= fun t => withSlice t i (i + L + 2) step) = .ok t' ∧
      Rounds size m a (wordsVal b) (i + 1) t' := by
  obtain ⟨inside, rfl⟩ := List.getElem?_eq_some_iff.mp index
  have length := round.size
  have low := round.low
  have modulus := constants.modulus_lt
  have radix := constants.radix
  have word := Nat.mul_le_mul (Nat.le_of_lt a[i].isLt) (Nat.le_of_lt canonical)
  have window := constants.window_lt
  have split := wordsVal_split t (k := i) (by omega)
  have below := wordsVal_lt (t.take i)
  rw [List.length_take, min_eq_left (show i ≤ t.length by omega)] at below
  have fits : wordsVal t + (2 ^ n) ^ i * (a[i].toNat * wordsVal b) < (2 ^ n) ^ t.length := by
    have more : (2 ^ n) ^ (i + (L + 2)) ≤ (2 ^ n) ^ t.length :=
      Nat.pow_le_pow_right (by positivity) (by omega)
    have inner : wordsVal (t.drop i) + a[i].toNat * wordsVal b + 1 ≤ (2 ^ n) ^ (L + 2) := by omega
    have scaled := Nat.mul_le_mul_left ((2 ^ n) ^ i) inner
    rw [← pow_add, Nat.mul_add, Nat.mul_add, Nat.mul_one] at scaled
    omega
  obtain ⟨sum, added, sumSize, sumVal⟩ := accumulates t i a[i] b ready (by omega) fits
  have sumDrop : wordsVal (sum.drop i) = wordsVal (t.drop i) + a[i].toNat * wordsVal b := by
    rw [wordsVal_drop _ (by omega), sumVal, split, Nat.add_assoc, ← Nat.mul_add,
      Nat.add_mul_div_left _ _ (by positivity), Nat.div_eq_of_lt below, Nat.zero_add]
  have sumLow : wordsVal (sum.drop i) < (2 ^ n) ^ (L + 2) := by omega
  have windowVal := (window_val (k := L + 2) (by omega) sumLow).1
  obtain ⟨w, q, reduced, wSize, qLow, value, divides⟩ := reduces ((sum.drop i).take (L + 2))
    (by rw [List.length_take, List.length_drop]; omega) (by rw [windowVal]; omega)
  obtain ⟨t', ran, size', value'⟩ := withSlice_returns (t := sum) (i := i) (k := L + 2) (by omega)
    sumLow reduced wSize
  refine ⟨t', by rw [added, ok_bind]; exact ran, round.next inside canonical
    (size'.trans (sumSize.trans length)) qLow ?_ (by rw [value']; exact divides) (by omega)⟩
  rw [value', value, windowVal, sumDrop]

/-- **The product of a number and a canonical number**, without the factor `R`. -/
theorem montgomeryMulWith_returns {a b : List (BitVec n)} (left : a.length = L)
    (right : b.length = L) (canonical : wordsVal b < m)
    {opZero : List (BitVec n) → ℕ → BitVec n → List (BitVec n) → Exec String (List (BitVec n))}
    (accumulatesZero : Accumulates opZero Cleared) (accumulates : Accumulates op fun _ _ _ => True)
    (reduces : Reduces L m step) :
    ∃ c, montgomeryMulWith L opZero op step a b negm = .ok c ∧ c.length = L ∧ wordsVal c < m ∧
      (wordsVal c * ((2 ^ n) ^ L : ℕ) : ZMod m) = (wordsVal a : ZMod m) * wordsVal b := by
  have some := constants.some
  have limb : ∀ i < L, ∃ x, a[i]? = .some x ∧ getAt (ε := String) a i = .ok x := fun i inside =>
    ⟨_, List.getElem?_eq_getElem (by omega), getAt_of_lt (by omega)⟩
  obtain ⟨x, isFirst, found⟩ := limb 0 some
  obtain ⟨t1, ran1, rounds1⟩ := round_returns constants (Rounds.start constants (2 * L + 1) a
    (wordsVal b)) (by omega) isFirst right canonical accumulatesZero
    (by rw [Cleared, List.drop_zero, List.take_replicate, min_eq_left (by omega)]) reduces
  obtain ⟨c, ran, facts⟩ := rounds1.later (f := fun t i => do
      let t ← op t i (← getAt a i) b
      withSlice t i (i + L + 2) step) constants (by omega) left fun {i t} inside round => by
    obtain ⟨y, isLimb, found⟩ := limb i inside
    rw [found, ok_bind]
    exact round_returns constants round (by omega) isLimb right canonical accumulates True.intro
      reduces
  obtain ⟨sum, added, reduced⟩ := bind_eq_ok.mp ran1
  rw [Nat.zero_add] at reduced
  refine ⟨c, ?_, facts⟩
  rw [montgomeryMulWith, found, ok_bind, added, ok_bind, reduced, ok_bind]
  exact ran

omit constants in
/-- Residues that agree up to the factor `R` have the same limbs. -/
theorem limbs_unique (odd : m % 2 = 1) {c d : List (BitVec n)} {z : ZMod m} (size : c.length = L)
    (size' : d.length = L) (low : wordsVal c < m) (low' : wordsVal d < m)
    (value : (wordsVal c * ((2 ^ n) ^ L : ℕ) : ZMod m) = z)
    (value' : (wordsVal d * ((2 ^ n) ^ L : ℕ) : ZMod m) = z) : c = d := by
  have two : IsUnit ((2 : ℕ) : ZMod m) := by
    rw [ZMod.isUnit_iff_coprime, Nat.coprime_two_left, Nat.odd_iff]
    exact odd
  have radix : IsUnit (((2 ^ n) ^ L : ℕ) : ZMod m) := by
    rw [Nat.cast_pow, Nat.cast_pow]
    exact (two.pow n).pow L
  have same := radix.mul_right_cancel (value.trans value'.symm)
  exact (IsResidue.unique ⟨size, low, rfl⟩ ⟨size', low', same.symm⟩)

end

/-- **The specialised product is the generic product**, in the limbs of both builds, and no carry or
borrow is lost: the product that checks each of them returns the same. -/
theorem montgomeryMul_eq_generic (width : Width) :
    ∃ F, newGeneric width (4 * width.perU64) (9 * width.perU64) modulus = .ok F ∧
      wordsVal F.modulo = wordsVal modulus ∧ ∀ a b : FpGenericField.Element width,
      F.IsCanonical (wordsVal modulus) a → F.IsCanonical (wordsVal modulus) b →
      ∃ c, F.mul a b = .ok c ∧ montgomeryMul width a b F.negModulo = .ok c ∧
        montgomeryMulExact width a b F.negModulo = .ok c ∧ F.IsCanonical (wordsVal modulus) c := by
  have positive : 0 < width.bits := Nat.zero_lt_of_lt width.wide
  have odd : wordsVal modulus % 2 = 1 := by decide
  have small : 4 * width.perU64 ≤ 16 := by cases width <;> decide
  obtain ⟨F, made, -, limbs, valid⟩ := newGeneric_returns (show Admits width (4 * width.perU64)
    (9 * width.perU64) modulus from ⟨by decide, rfl, by cases width <;> decide,
      by cases width <;> decide, odd, by decide⟩)
  have constants := valid.constants
  rw [limbs] at constants
  refine ⟨F, made, constants.value, fun a b ⟨left, _⟩ ⟨right, canonical⟩ => ?_⟩
  rw [limbs] at left right
  obtain ⟨c, ran, size, low, value⟩ := montgomeryMul_returns constants small left right canonical
  obtain ⟨d, ran', size', low', value'⟩ := montgomeryMulWith_returns constants left right canonical
    (mulAccumZero_accumulates positive) (mulAccum_accumulates positive)
    (p256ReductionStep_reduces width)
  obtain ⟨e, ran'', size'', low'', value''⟩ := montgomeryMulWith_returns constants left right
    canonical (mulAccumZeroExact_accumulates positive) (mulAccumExact_accumulates positive)
    (p256ReductionStepExact_reduces width)
  obtain rfl := limbs_unique odd size size' low low' value value'
  obtain rfl := limbs_unique odd size size'' low low'' value value''
  refine ⟨c, ?_, ran', ran'', size.trans limbs.symm, low⟩
  rw [FpGenericField.mul, limbs, ran]

/-- The square of one, in limbs of 64 bits. -/
theorem montgomeryMul_eq_generic_one : ∃ F c, newGeneric .limb64 4 9 modulus = .ok F ∧
    F.mul [1, 0, 0, 0] [1, 0, 0, 0] = .ok c ∧
    montgomeryMul .limb64 [1, 0, 0, 0] [1, 0, 0, 0] F.negModulo = .ok c := by
  obtain ⟨F, made, _, same⟩ := montgomeryMul_eq_generic .limb64
  obtain ⟨_, limbs, _⟩ := newGeneric_valid made
  have canonical : F.IsCanonical (wordsVal modulus) ([1, 0, 0, 0] : List (BitVec 64)) :=
    ⟨limbs.symm, by decide⟩
  obtain ⟨c, generic, special, _⟩ := same _ _ canonical canonical
  exact ⟨F, c, made, generic, special⟩

end Longfellow.P256
