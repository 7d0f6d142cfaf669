/-
**Counters in a field** (`lib/circuits/logic/counter.h`, `lib/algebra/fp_generic.h`,
`lib/gf2k/gf2_128.h`).

A counter holds a small number: as itself in a prime field, and as the exponent of a generator in a
binary field, where counters are added by multiplication. Only elements that come from a number
are meaningful, and nothing makes a wire hold one of these.

* `counter` — the counter of an integer, through every operation.
-/

import Longfellow.CborV2.Logic
import Longfellow.Lib.BitList

set_option linter.unusedSectionVars false

namespace Longfellow.CborV2

open CircuitField Logic
open scoped BigOperators

variable {E : Type} [CircuitField E] [DecidableEq E]

/-- A wire that holds a counter. -/
structure CEltW (E : Type) where
  e : E
  deriving DecidableEq

/-- The generator squared `i` times. -/
def counterBeta : ℕ → E
  | 0 => g
  | i + 1 => counterBeta i * counterBeta i

/-- The counter of a number, as the field computes it from the bits below the dimension. -/
def fieldCounter (a : ℕ) : E :=
  if kCharacteristicTwo E then
    (List.range (kSubFieldBits E)).foldl
      (fun r i => if a.testBit i then r * counterBeta i else r) 1
  else ofScalar a

namespace Counter

/-- An element that is zero when the counter is. -/
def znzIndicator (c : CEltW E) : E := if kCharacteristicTwo E then c.e - 1 else c.e

def mone : CEltW E := ⟨if kCharacteristicTwo E then g⁻¹ else -1⟩

def asCounter (n : ℕ) : CEltW E := ⟨fieldCounter n⟩

/-- The counter of a number that is given by its bits. -/
def asCounterBits (w : ℕ) (v : ℕ → BitW E) : CEltW E :=
  ⟨if kCharacteristicTwo E then mulRange 0 w fun i => Logic.mux (v i) (counterBeta i) 1
    else asScalar w v⟩

def add (a b : CEltW E) : CEltW E := ⟨if kCharacteristicTwo E then a.e * b.e else a.e + b.e⟩

def sub (a b : CEltW E) : CEltW E := ⟨a.e - b.e⟩

def addRange (i0 i1 : ℕ) (f : ℕ → CEltW E) : CEltW E :=
  combine add (asCounter 0) f (i1 - i0) i0 i1

def ite0 (a : BitW E) (b : CEltW E) : CEltW E :=
  ⟨if kCharacteristicTwo E then Logic.mux a b.e 1 else eval a * b.e⟩

def mux (a : BitW E) (b c : CEltW E) : CEltW E :=
  if kCharacteristicTwo E then ⟨Logic.mux a b.e c.e⟩ else add c (ite0 a (sub b c))

def assert0 (a : CEltW E) : Assertions :=
  if kCharacteristicTwo E then Logic.assertEq a.e 1 else Logic.assert0 a.e

def assertEq (a b : CEltW E) : Assertions := Logic.assertEq a.e b.e

end Counter

/-! ### The counter of an integer -/

open Counter

def counter (z : ℤ) : CEltW E := ⟨if kCharacteristicTwo E then g ^ z else (z : E)⟩

/-- How many numbers the counters tell apart. -/
def counterOrder (E : Type) [CircuitField E] : ℕ :=
  if kCharacteristicTwo E then 2 ^ kSubFieldBits E - 1 else characteristic E

section Integers

variable {a b c : CEltW E}

theorem g_ne_zero (kind : kCharacteristicTwo E = true) : (g : E) ≠ 0 := by
  intro zero
  have order := orderOf_g kind
  have large : 2 ^ 8 ≤ 2 ^ kSubFieldBits E := Nat.pow_le_pow_right (by norm_num) kSubFieldBits_ge
  have power := pow_orderOf_eq_one (g : E)
  rw [zero, zero_pow (by rw [← zero, order]; omega)] at power
  exact zero_ne_one power

theorem CEltW.ext' (same : a.e = b.e) : a = b := by
  cases a
  cases b
  cases same
  rfl

theorem add_counter (x y : ℤ) : add (counter x : CEltW E) (counter y) = counter (x + y) := by
  unfold add counter
  cases kind : kCharacteristicTwo E with
  | true => exact CEltW.ext' (zpow_add₀ (g_ne_zero kind) x y).symm
  | false => exact CEltW.ext' (Int.cast_add x y).symm

theorem cadd_assoc (a b c : CEltW E) : add (add a b) c = add a (add b c) := by
  unfold add
  cases kCharacteristicTwo E with
  | true => exact CEltW.ext' (mul_assoc _ _ _)
  | false => exact CEltW.ext' (add_assoc _ _ _)

theorem cadd_comm (a b : CEltW E) : add a b = add b a := by
  unfold add
  cases kCharacteristicTwo E with
  | true => exact CEltW.ext' (mul_comm _ _)
  | false => exact CEltW.ext' (add_comm _ _)

theorem cadd_zero (a : CEltW E) : add a (counter 0) = a := by
  unfold add counter
  cases kCharacteristicTwo E with
  | true => exact CEltW.ext' (by simp)
  | false => exact CEltW.ext' (by simp)

theorem eq_counter_of_add {x y : ℤ} (sum : add a (counter x) = counter y) : a = counter (y - x) := by
  calc a = add (add a (counter x)) (counter (-x)) := by
        rw [cadd_assoc, add_counter, add_neg_cancel, cadd_zero]
    _ = counter (y - x) := by rw [sum, add_counter, sub_eq_add_neg]

/-- **Counters tell apart the numbers below the order.** -/
theorem counter_injective {m n : ℕ} (left : m < counterOrder E) (right : n < counterOrder E)
    (same : (counter m : CEltW E) = counter n) : m = n := by
  unfold counterOrder at left right
  unfold counter at same
  have elements := congrArg CEltW.e same
  cases kind : kCharacteristicTwo E with
  | true =>
    simp only [kind, if_true, zpow_natCast] at left right elements
    rw [← orderOf_g kind] at left right
    exact pow_injOn_Iio_orderOf left right elements
  | false =>
    simp only [kind, Bool.false_eq_true, if_false, Int.cast_natCast] at left right elements
    have : CharP E (characteristic E) := charP
    have congruent := (CharP.cast_eq_iff_mod_eq E (characteristic E)).mp elements
    rwa [Nat.mod_eq_of_lt left, Nat.mod_eq_of_lt right] at congruent

theorem mone_eq : (mone : CEltW E) = counter (-1) := by
  unfold mone counter
  cases kCharacteristicTwo E with
  | true => exact CEltW.ext' (zpow_neg_one g).symm
  | false => exact CEltW.ext' (by simp)

theorem ite0_eq {v : BitW E} {t : Bool} (is : v.Encodes t) (b : CEltW E) :
    ite0 v b = if t then b else counter 0 := by
  unfold ite0 counter
  apply CEltW.ext'
  cases kCharacteristicTwo E with
  | true =>
    rw [if_pos rfl, is.mux]
    cases t <;> simp
  | false =>
    rw [if_neg Bool.false_ne_true, eval_eq, is]
    cases t <;> simp

theorem mux_eq' {v : BitW E} {t : Bool} (is : v.Encodes t) (b c : CEltW E) :
    Counter.mux v b c = if t then b else c := by
  unfold Counter.mux
  cases kind : kCharacteristicTwo E with
  | true =>
    rw [if_pos rfl, is.mux]
    cases t <;> rfl
  | false =>
    rw [if_neg Bool.false_ne_true, ite0_eq is]
    cases t with
    | true =>
      refine CEltW.ext' ?_
      rw [if_pos rfl, if_pos rfl, add, kind, sub]
      exact add_sub_cancel _ _
    | false => exact cadd_zero c

theorem assert0_eq_true : Counter.assert0 a = true ↔ a = counter 0 := by
  unfold Counter.assert0 counter
  cases kCharacteristicTwo E with
  | true =>
    rw [if_pos rfl, assertEq_iff]
    exact ⟨fun one => CEltW.ext' (by simpa using one), fun zero => by rw [zero]; simp⟩
  | false =>
    rw [if_neg Bool.false_ne_true, assert0_iff]
    exact ⟨fun none => CEltW.ext' (by simpa using none), fun zero => by rw [zero]; simp⟩

theorem assertEq_eq_true : Counter.assertEq a b = true ↔ a = b :=
  assertEq_iff.trans ⟨CEltW.ext', fun same => congrArg CEltW.e same⟩

theorem znzIndicator_eq_zero : znzIndicator a = 0 ↔ a = counter 0 := by
  unfold znzIndicator counter
  cases kCharacteristicTwo E with
  | true =>
    rw [if_pos rfl, sub_eq_zero]
    exact ⟨fun one => CEltW.ext' (by simpa using one), fun zero => by rw [zero]; simp⟩
  | false =>
    rw [if_neg Bool.false_ne_true]
    exact ⟨fun none => CEltW.ext' (by simpa using none), fun zero => by rw [zero]; simp⟩

end Integers

/-! ### Numbers from their bits -/

section Numbers

theorem counterBeta_eq (i : ℕ) : (counterBeta i : E) = g ^ 2 ^ i := by
  induction i with
  | zero => rw [counterBeta, pow_zero, pow_one]
  | succ i ih => rw [counterBeta, ih, ← pow_add, ← two_mul, ← pow_succ']

theorem fieldCounter_loop (a w : ℕ) :
    (List.range w).foldl (fun r i => if a.testBit i then r * counterBeta i else r) (1 : E) =
      g ^ (a % 2 ^ w) := by
  induction w with
  | zero => rw [pow_zero, Nat.mod_one, pow_zero]; rfl
  | succ w ih =>
    rw [List.range_succ, List.foldl_append, ih, Lib.mod_two_pow_succ]
    simp only [List.foldl_cons, List.foldl_nil]
    by_cases on : a.testBit w = true
    · rw [if_pos on, if_pos on, counterBeta_eq, pow_add]
    · rw [if_neg on, if_neg on, Nat.add_zero]

theorem asCounter_eq {n : ℕ} (small : n < 2 ^ kSubFieldBits E) :
    (asCounter n : CEltW E) = counter n := by
  unfold asCounter fieldCounter counter
  cases kind : kCharacteristicTwo E with
  | true =>
    rw [if_pos rfl, if_pos rfl, fieldCounter_loop, Nat.mod_eq_of_lt small, zpow_natCast]
  | false =>
    rw [if_neg Bool.false_ne_true, if_neg Bool.false_ne_true, ofScalar, scalarOf, kind,
      if_neg Bool.false_ne_true, Int.cast_natCast]

theorem asCounter_of_byte {n : ℕ} (byte : n < 256) : (asCounter n : CEltW E) = counter n := by
  refine asCounter_eq (lt_of_lt_of_le byte ?_)
  calc 256 = 2 ^ 8 := by norm_num
    _ ≤ 2 ^ kSubFieldBits E := Nat.pow_le_pow_right (by norm_num) (kSubFieldBits_ge)

theorem counterBeta_prod (x w : ℕ) :
    ∏ i ∈ Finset.range w, (if x.testBit i then counterBeta i else (1 : E)) = g ^ (x % 2 ^ w) := by
  induction w with
  | zero => rw [Finset.prod_range_zero, pow_zero, Nat.mod_one, pow_zero]
  | succ w ih =>
    rw [Finset.prod_range_succ, ih, Lib.mod_two_pow_succ, counterBeta_eq]
    by_cases on : x.testBit w = true
    · rw [if_pos on, if_pos on, pow_add]
    · rw [if_neg on, if_neg on, Nat.add_zero, mul_one]

theorem asScalar_loop (kind : kCharacteristicTwo E = false) {v : ℕ → BitW E} {x w : ℕ}
    (holds : Holds w v x) :
    (List.range w).foldl (fun r i => r + beta i * eval (v i)) (0 : E) = (x % 2 ^ w : ℕ) := by
  induction w with
  | zero => rw [pow_zero, Nat.mod_one, Nat.cast_zero]; rfl
  | succ w ih =>
    rw [List.range_succ, List.foldl_append, ih fun i below => holds i (Nat.lt_succ_of_lt below),
      Lib.mod_two_pow_succ]
    simp only [List.foldl_cons, List.foldl_nil]
    rw [eval_eq, holds w (Nat.lt_succ_self w), beta, kind, if_neg Bool.false_ne_true]
    by_cases on : x.testBit w = true
    · rw [if_pos on, if_pos on]
      push_cast
      ring
    · rw [if_neg on, if_neg on]
      push_cast
      ring

theorem asCounterBits_eq {v : ℕ → BitW E} {x w : ℕ} (holds : Holds w v x) (small : x < 2 ^ w) :
    (asCounterBits w v : CEltW E) = counter x := by
  unfold asCounterBits counter
  apply CEltW.ext'
  cases kind : kCharacteristicTwo E with
  | true =>
    rw [if_pos rfl, if_pos rfl, mulRange_eq, zpow_natCast, ← Finset.range_eq_Ico,
      Finset.prod_congr rfl fun i member => (holds i (Finset.mem_range.mp member)).mux _ _,
      counterBeta_prod, Nat.mod_eq_of_lt small]
  | false =>
    rw [if_neg Bool.false_ne_true, if_neg Bool.false_ne_true, asScalar, asScalar_loop kind holds,
      Nat.mod_eq_of_lt small, Int.cast_natCast]

end Numbers

/-! ### Sums -/

section Sums

instance : AddCommMonoid (CEltW E) where
  add := add
  add_assoc := cadd_assoc
  zero := counter 0
  zero_add a := (cadd_comm _ _).trans (cadd_zero a)
  add_zero := cadd_zero
  add_comm := cadd_comm
  nsmul := @nsmulRec _ ⟨counter 0⟩ ⟨add⟩

theorem addRange_counters (i0 i1 : ℕ) {f : ℕ → CEltW E} {z : ℕ → ℤ}
    (each : ∀ i, i0 ≤ i → i < i1 → f i = counter (z i)) :
    Counter.addRange i0 i1 f = counter (∑ i ∈ Finset.Ico i0 i1, z i) := by
  have sum : Counter.addRange i0 i1 f = ∑ i ∈ Finset.Ico i0 i1, f i :=
    combine_prod (M := Multiplicative (CEltW E)) Multiplicative.ofAdd (fun _ _ => rfl)
      (asCounter_of_byte (by norm_num)) f le_rfl
  have counters : ∑ i ∈ Finset.Ico i0 i1, (counter (z i) : CEltW E) =
      counter (∑ i ∈ Finset.Ico i0 i1, z i) := by
    induction Finset.Ico i0 i1 using Finset.induction_on with
    | empty => rfl
    | insert i s out ih =>
      rw [Finset.sum_insert out, Finset.sum_insert out, ih]
      exact add_counter _ _
  rw [sum, ← counters]
  exact Finset.sum_congr rfl fun i member =>
    each i (Finset.mem_Ico.mp member).1 (Finset.mem_Ico.mp member).2

end Sums

end Longfellow.CborV2
