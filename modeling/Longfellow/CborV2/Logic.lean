/-
**Boolean logic in a field** (`lib/circuits/logic/logic.h`).

A wire is the element it carries. A bit is a wire `x` with two constants: it stands for
`c0 + c1 * x`, which is one for true and zero for false. An array is a function of its index, and
the operations say how much of it they read. An assertion is whether it holds.

* `CircuitField` — what the circuits ask of a field;
* `BitW.value` — what a bit stands for, through every gate.
-/

import Mathlib.Algebra.BigOperators.Intervals
import Mathlib.Algebra.BigOperators.Ring.Finset
import Mathlib.Algebra.CharP.Basic
import Mathlib.Data.Nat.Bitwise
import Mathlib.GroupTheory.OrderOfElement
import Mathlib.Tactic.LinearCombination
import Mathlib.Tactic.Ring

set_option linter.unusedSectionVars false

namespace Longfellow.CborV2

open scoped BigOperators

/-- The element that the bits of a number are packed into. -/
def scalarOf {E : Type} [Field E] (kCharacteristicTwo : Bool) (kSubFieldBits : ℕ) (g : E)
    (u : ℕ) : E :=
  if kCharacteristicTwo then
    (List.range kSubFieldBits).foldl (fun t k => if u.testBit k then t + g ^ k else t) 0
  else (u : E)

/-- What the circuits ask of a field. Numbers are elements of a prime field; in a binary field their
bits are coordinates in the basis of powers of a generator, which has the order of a subfield. -/
class CircuitField (E : Type) extends Field E where
  characteristic : ℕ
  charP : CharP E characteristic
  kCharacteristicTwo : Bool
  two_iff : kCharacteristicTwo = true ↔ characteristic = 2
  kSubFieldBits : ℕ
  kSubFieldBits_ge : 8 ≤ kSubFieldBits
  g : E
  orderOf_g : kCharacteristicTwo = true → orderOf g = 2 ^ kSubFieldBits - 1
  /-- Bytes are told apart. -/
  scalars : ∀ u v, u < 256 → v < 256 → scalarOf kCharacteristicTwo kSubFieldBits g u =
    scalarOf kCharacteristicTwo kSubFieldBits g v → u = v

variable {E : Type} [CircuitField E] [DecidableEq E]

open CircuitField

def ofScalar (u : ℕ) : E := scalarOf (kCharacteristicTwo E) (kSubFieldBits E) g u

/-- The element of a single bit. -/
def beta (i : ℕ) : E := if kCharacteristicTwo E then g ^ i else 2 ^ i

def half : E := 2⁻¹

/-- A bit: it stands for `c0 + c1 * x`. -/
structure BitW (E : Type) where
  c0 : E
  c1 : E
  x : E

/-- A wire as a bit. -/
def BitW.ofElt (bv : E) : BitW E := ⟨0, 1, bv⟩

/-- Whether some assertions hold. -/
abbrev Assertions := Bool

namespace Logic

/-! ### Gates -/

/-- The bit for `d0 + d1 * v`, on the same wire. -/
def rebase (d0 d1 : E) (v : BitW E) : BitW E := ⟨d0 + d1 * v.c0, d1 * v.c1, v.x⟩

def eval (v : BitW E) : E :=
  let r := v.c1 * v.x
  if v.c0 ≠ 0 then v.c0 + r else r

def konst (u : ℕ) : E := ofScalar u

def bit (b : ℕ) : BitW E := ⟨if b = 0 then 0 else 1, 0, 1⟩

/-- The bits of a number. -/
def bits (x : ℕ) : ℕ → BitW E := fun i => bit ((x >>> i) &&& 1)

def vbit (x : ℕ) : ℕ → BitW E := bits x

def mulv (a b : BitW E) : BitW E :=
  if a.c1 = 0 then rebase 0 a.c0 b
  else if b.c1 = 0 then rebase 0 b.c0 a
  else
    let x := a.c1 * b.c1 * a.x * b.x
    let x := x + a.c0 * b.c1 * b.x
    let x := x + a.c1 * b.c0 * a.x
    let x := x + a.c0 * b.c0
    .ofElt x

def addv (a b : BitW E) : BitW E :=
  if a.c1 = 0 then ⟨a.c0 + b.c0, b.c1, b.x⟩
  else if b.c1 = 0 then ⟨b.c0 + a.c0, a.c1, a.x⟩
  else
    let x := a.c1 * a.x
    let x := x + b.c1 * b.x
    let x := x + (a.c0 + b.c0)
    .ofElt x

def lnot (x : BitW E) : BitW E := rebase 1 (-1) x

def land (a b : BitW E) : BitW E := mulv a b

/-- A bit times an element. -/
def lmul (a : BitW E) (b : E) : E := eval (mulv a (.ofElt b))

/-- The product where true is `-1` and false is `1`, or the sum where two is zero. -/
def lxor (a b : BitW E) : BitW E :=
  if kCharacteristicTwo E then addv a b
  else
    let a1 := rebase 1 (-2) a
    let b1 := rebase 1 (-2) b
    rebase half (-half) (mulv a1 b1)

def lor (a b : BitW E) : BitW E := lnot (land (lnot a) (lnot b))

def limplies (a b : BitW E) : BitW E := lor (lnot a) b

/-- The disjunction of two bits that are not both true. -/
def lorExclusive (a b : BitW E) : BitW E := addv a b

def mux (control : BitW E) (iftrue iffalse : E) : E :=
  lmul control iftrue + lmul (lnot control) iffalse

/-! ### Arrays -/

/-- The entries from `i0` up to `i1`, combined in halves; there are no more than `fuel`. -/
def combine {R : Type} (op : R → R → R) (unit : R) (f : ℕ → R) : ℕ → ℕ → ℕ → R
  | 0, _, _ => unit
  | fuel + 1, i0, i1 =>
    if i1 ≤ i0 then unit
    else if i1 = i0 + 1 then f i0
    else
      let im := i0 + (i1 - i0) / 2
      op (combine op unit f fuel i0 im) (combine op unit f fuel im i1)

def addRange (i0 i1 : ℕ) (f : ℕ → E) : E := combine (· + ·) (konst 0) f (i1 - i0) i0 i1

def mulRange (i0 i1 : ℕ) (f : ℕ → E) : E := combine (· * ·) (konst 1) f (i1 - i0) i0 i1

def lorExclusiveRange (i0 i1 : ℕ) (f : ℕ → BitW E) : BitW E :=
  combine lorExclusive (bit 0) f (i1 - i0) i0 i1

/-- Whether the bits of an array are all false. -/
def eq0 (i0 i1 : ℕ) (a : ℕ → BitW E) : BitW E :=
  combine land (bit 1) (fun i => lnot (a i)) (i1 - i0) i0 i1

/-- Whether two arrays have the same bits. -/
def eq (w : ℕ) (a b : ℕ → BitW E) : BitW E :=
  combine land (bit 1) (fun i => lnot (lxor (a i) (b i))) w 0 w

def veq (w : ℕ) (a : ℕ → BitW E) (val : ℕ) : BitW E := eq w a (vbit val)

/-- The entries of an array that a mask selects. -/
def pack (mask n : ℕ) (a : ℕ → BitW E) : List (BitW E) :=
  ((List.range n).filter fun i => mask.testBit i).map a

/-- Whether an array has the bits of a number wherever a mask selects them. -/
def veqmask (w : ℕ) (a : ℕ → BitW E) (mask val : ℕ) : BitW E :=
  let r := pack mask w fun i => lxor (a i) (vbit val i)
  eq0 0 r.length fun i => r.getD i (bit 0)

def slice (i0 : ℕ) (a : ℕ → BitW E) : ℕ → BitW E := fun i => a (i + i0)

/-- The element that some bits are packed into. -/
def asScalar (w : ℕ) (v : ℕ → BitW E) : E :=
  (List.range w).foldl (fun r i => r + beta i * eval (v i)) 0

/-! ### Assertions -/

def assert0 (a : E) : Assertions := decide (a = 0)

def assertEq (a b : E) : Assertions := assert0 (a - b)

def assertFalse (v : BitW E) : Assertions := assert0 (eval v)

def assert1 (v : BitW E) : Assertions := assertFalse (lnot v)

def assertImplies (a b : BitW E) : Assertions := assert1 (limplies a b)

def assertIsBit (v : E) : Assertions := assert0 (v - v * v)

def vassertIsBit (w : ℕ) (a : ℕ → BitW E) : Assertions :=
  (List.range w).all fun i => assertIsBit (eval (a i))

end Logic

/-! ### What bits stand for -/

open Logic

def BitW.value (b : BitW E) : E := b.c0 + b.c1 * b.x

/-- The bit stands for a truth value. -/
def BitW.Encodes (b : BitW E) (t : Bool) : Prop := b.value = if t then 1 else 0

section Values

variable {a b : BitW E} {s t : Bool}

@[simp] theorem value_ofElt (x : E) : (BitW.ofElt x).value = x := by
  rw [BitW.value, BitW.ofElt, zero_add, one_mul]

@[simp] theorem value_rebase (d0 d1 : E) (v : BitW E) : (rebase d0 d1 v).value = d0 + d1 * v.value := by
  unfold BitW.value rebase
  ring

@[simp] theorem eval_eq (v : BitW E) : eval v = v.value := by
  unfold eval BitW.value
  by_cases none : v.c0 = 0
  · rw [if_neg (not_not.mpr none), none, zero_add]
  · rw [if_pos none]

@[simp] theorem value_mulv (a b : BitW E) : (mulv a b).value = a.value * b.value := by
  unfold mulv
  by_cases left : a.c1 = 0
  · rw [if_pos left, value_rebase, BitW.value, BitW.value, left]
    ring
  by_cases right : b.c1 = 0
  · rw [if_neg left, if_pos right, value_rebase, BitW.value, BitW.value, right]
    ring
  · rw [if_neg left, if_neg right, value_ofElt, BitW.value, BitW.value]
    ring

@[simp] theorem value_addv (a b : BitW E) : (addv a b).value = a.value + b.value := by
  unfold addv
  by_cases left : a.c1 = 0
  · rw [if_pos left, BitW.value, BitW.value, BitW.value, left]
    ring
  by_cases right : b.c1 = 0
  · rw [if_neg left, if_pos right, BitW.value, BitW.value, BitW.value, right]
    ring
  · rw [if_neg left, if_neg right, value_ofElt, BitW.value, BitW.value]
    ring

@[simp] theorem value_lnot (a : BitW E) : (lnot a).value = 1 - a.value := by
  rw [lnot, value_rebase]
  ring

@[simp] theorem value_land (a b : BitW E) : (land a b).value = a.value * b.value := value_mulv a b

@[simp] theorem lmul_eq (a : BitW E) (x : E) : lmul a x = a.value * x := by
  rw [lmul, eval_eq, value_mulv, value_ofElt]

theorem two_eq_zero : (2 : E) = 0 ↔ kCharacteristicTwo E = true := by
  have : CharP E (characteristic E) := charP
  have divides := CharP.cast_eq_zero_iff E (characteristic E) 2
  rw [two_iff, ← Nat.cast_ofNat, divides]
  constructor
  · intro divides
    refine (Nat.dvd_prime Nat.prime_two).mp divides |>.resolve_left fun one => ?_
    exact CharP.char_ne_one E (characteristic E) one
  · exact fun same => same ▸ dvd_rfl

theorem half_mul_two (odd : kCharacteristicTwo E = false) : (half : E) * 2 = 1 := by
  have two : (2 : E) ≠ 0 := fun zero => by
    rw [two_eq_zero.mp zero] at odd
    exact Bool.noConfusion odd
  exact inv_mul_cancel₀ two

@[simp] theorem value_lxor (a b : BitW E) :
    (lxor a b).value = a.value + b.value - 2 * (a.value * b.value) := by
  unfold lxor
  cases kind : kCharacteristicTwo E with
  | true =>
    rw [if_pos rfl, value_addv, two_eq_zero.mpr kind]
    ring
  | false =>
    rw [if_neg Bool.false_ne_true, value_rebase, value_mulv, value_rebase, value_rebase]
    linear_combination (a.value + b.value - 2 * (a.value * b.value)) * half_mul_two (E := E) kind

@[simp] theorem value_lor (a b : BitW E) :
    (lor a b).value = 1 - (1 - a.value) * (1 - b.value) := by
  rw [lor, value_lnot, value_land, value_lnot, value_lnot]

@[simp] theorem value_lorExclusive (a b : BitW E) : (lorExclusive a b).value = a.value + b.value :=
  value_addv a b

@[simp] theorem mux_eq (control : BitW E) (x y : E) :
    mux control x y = control.value * x + (1 - control.value) * y := by
  rw [mux, lmul_eq, lmul_eq, value_lnot]

@[simp] theorem value_bit_zero : (bit 0 : BitW E).value = 0 := by
  rw [BitW.value, bit, if_pos rfl, zero_mul, zero_add]

@[simp] theorem value_bit_one : (bit 1 : BitW E).value = 1 := by
  rw [BitW.value, bit, if_neg Nat.one_ne_zero, zero_mul, add_zero]

theorem scalar_loop (u : ℕ) (ks : List ℕ) (t : E) :
    ks.foldl (fun t k => if u.testBit k then t + g ^ k else t) t =
      t + (ks.map fun k => if u.testBit k then (g : E) ^ k else 0).sum := by
  induction ks generalizing t with
  | nil => rw [List.foldl_nil, List.map_nil, List.sum_nil, add_zero]
  | cons k ks ih =>
    rw [List.foldl_cons, ih, List.map_cons, List.sum_cons, ← add_assoc]
    by_cases on : u.testBit k = true
    · rw [if_pos on, if_pos on]
    · rw [if_neg on, if_neg on, add_zero]

theorem scalar_zero : (ofScalar 0 : E) = 0 := by
  unfold ofScalar scalarOf
  cases kCharacteristicTwo E with
  | true => rw [if_pos rfl, scalar_loop]; simp
  | false => rw [if_neg Bool.false_ne_true, Nat.cast_zero]

theorem scalar_one : (ofScalar 1 : E) = 1 := by
  unfold ofScalar scalarOf
  cases kCharacteristicTwo E with
  | true =>
    obtain ⟨n, bits⟩ := Nat.exists_eq_succ_of_ne_zero
      (show kSubFieldBits E ≠ 0 by have := kSubFieldBits_ge (E := E); omega)
    rw [if_pos rfl, scalar_loop, bits, List.range_succ_eq_map]
    simp [Nat.testBit_one_eq_true_iff_self_eq_zero, Function.comp_def]
  | false => rw [if_neg Bool.false_ne_true, Nat.cast_one]

/-! ### Truth values -/

namespace BitW.Encodes

theorem congr (is : a.Encodes s) (same : s = t) : a.Encodes t := same ▸ is

theorem of_iff {p q : Prop} [Decidable p] [Decidable q] (is : a.Encodes (decide p)) (same : p ↔ q) :
    a.Encodes (decide q) := is.congr (decide_eq_decide.mpr same)

theorem bit (n : ℕ) : (Logic.bit n : BitW E).Encodes (decide (n ≠ 0)) := by
  by_cases zero : n = 0
  · subst zero
    exact value_bit_zero
  · rw [Encodes, BitW.value, Logic.bit, if_neg zero, zero_mul, add_zero,
      if_pos (decide_eq_true zero)]

theorem lnot (is : a.Encodes t) : (Logic.lnot a).Encodes (!t) := by
  rw [Encodes, value_lnot, is]
  cases t <;> simp

section

variable (left : a.Encodes s) (right : b.Encodes t)
include left right

theorem land : (Logic.land a b).Encodes (s && t) := by
  rw [Encodes, value_land, left, right]
  cases s <;> cases t <;> simp

theorem lor : (Logic.lor a b).Encodes (s || t) := by
  rw [Encodes, value_lor, left, right]
  cases s <;> cases t <;> simp

theorem lxor : (Logic.lxor a b).Encodes (s ^^ t) := by
  rw [Encodes, value_lxor, left, right]
  cases s <;> cases t <;> simp
  ring

theorem same :
    (Logic.lnot (Logic.lxor a b)).Encodes (decide (s = t)) := by
  refine (left.lxor right).lnot.congr ?_
  cases s <;> cases t <;> rfl

theorem lorExclusive (apart : (s && t) = false) :
    (Logic.lorExclusive a b).Encodes (s || t) := by
  rw [Encodes, value_lorExclusive, left, right]
  cases s <;> cases t <;> simp at apart ⊢

end

theorem mux (is : a.Encodes t) (x y : E) : Logic.mux a x y = if t then x else y := by
  rw [mux_eq, is]
  cases t <;> simp

theorem unique (left : a.Encodes s) (right : a.Encodes t) : s = t := by
  have same := left.symm.trans right
  cases s <;> cases t <;> simp at same ⊢

theorem ofElt_iff {x : E} : (BitW.ofElt x).Encodes t ↔ x = if t then 1 else 0 := by
  rw [Encodes, value_ofElt]

theorem assert1_iff (is : a.Encodes t) : assert1 a = true ↔ t = true := by
  rw [assert1, assertFalse, assert0, eval_eq, value_lnot, is, decide_eq_true_iff]
  cases t <;> simp

theorem assertFalse_iff (is : a.Encodes t) : assertFalse a = true ↔ t = false := by
  rw [assertFalse, assert0, eval_eq, is, decide_eq_true_iff]
  cases t <;> simp

theorem assertImplies_iff (left : a.Encodes s) (right : b.Encodes t) :
    assertImplies a b = true ↔ (s = true → t = true) := by
  rw [assertImplies, limplies, (left.lnot.lor right).assert1_iff]
  cases s <;> cases t <;> simp

end BitW.Encodes

theorem assert0_iff {x : E} : assert0 x = true ↔ x = 0 := decide_eq_true_iff

theorem assertEq_iff {x y : E} : assertEq x y = true ↔ x = y := by
  rw [assertEq, assert0_iff, sub_eq_zero]

theorem assertIsBit_iff {x : E} : assertIsBit x = true ↔ ∃ t : Bool, x = if t then 1 else 0 := by
  rw [assertIsBit, assert0_iff]
  constructor
  · intro square
    have product : x * (1 - x) = 0 := by linear_combination square
    rcases mul_eq_zero.mp product with zero | one
    · exact ⟨false, by rw [if_neg Bool.false_ne_true, zero]⟩
    · exact ⟨true, by rw [if_pos rfl, ← sub_eq_zero.mp one]⟩
  · rintro ⟨t, rfl⟩
    cases t <;> simp

end Values

/-! ### Ranges -/

section Ranges

variable {R M : Type}

theorem combine_prod [CommMonoid M] (value : R → M) {op : R → R → R} {unit : R}
    (mul : ∀ a b, value (op a b) = value a * value b) (one : value unit = 1) (f : ℕ → R)
    {fuel i0 i1 : ℕ} (enough : i1 - i0 ≤ fuel) :
    value (combine op unit f fuel i0 i1) = ∏ i ∈ Finset.Ico i0 i1, value (f i) := by
  induction fuel generalizing i0 i1 with
  | zero =>
    rw [combine, one, Finset.Ico_eq_empty_of_le (by omega), Finset.prod_empty]
  | succ fuel ih =>
    rw [combine]
    by_cases none : i1 ≤ i0
    · rw [if_pos none, one, Finset.Ico_eq_empty_of_le none, Finset.prod_empty]
    by_cases single : i1 = i0 + 1
    · rw [if_neg none, if_pos single, single, Nat.Ico_succ_singleton, Finset.prod_singleton]
    · rw [if_neg none, if_neg single]
      show value (op _ _) = _
      rw [mul, ih (by omega), ih (by omega), Finset.prod_Ico_consecutive _ (by omega) (by omega)]

theorem mulRange_eq (i0 i1 : ℕ) (f : ℕ → E) : mulRange i0 i1 f = ∏ i ∈ Finset.Ico i0 i1, f i :=
  combine_prod (fun x : E => x) (fun _ _ => rfl) (by rw [konst, scalar_one]) f le_rfl

theorem encodes_combine_land {f : ℕ → BitW E} {p : ℕ → Bool} {w : ℕ}
    (each : ∀ i < w, (f i).Encodes (p i)) {fuel : ℕ} (enough : w ≤ fuel) :
    (combine land (bit 1) f fuel 0 w).Encodes (decide (∀ i < w, p i = true)) := by
  rw [BitW.Encodes, combine_prod BitW.value value_land value_bit_one f (by omega)]
  have bits : ∏ i ∈ Finset.Ico 0 w, (f i).value =
      ∏ i ∈ Finset.Ico 0 w, if p i = true then (1 : E) else 0 :=
    Finset.prod_congr rfl fun i member => each i (Finset.mem_Ico.mp member).2
  rw [bits, Finset.prod_boole]
  simp

end Ranges

/-! ### Numbers -/

section Numbers

variable {a b : ℕ → BitW E} {x y w : ℕ}

/-- The array holds the bits of a number. -/
def Holds (w : ℕ) (a : ℕ → BitW E) (x : ℕ) : Prop := ∀ i < w, (a i).Encodes (x.testBit i)

theorem holds_vbit (w x : ℕ) : Holds w (vbit x : ℕ → BitW E) x := by
  intro i _
  refine (BitW.Encodes.bit _).congr ?_
  rw [Nat.testBit_eq_decide_div_mod_eq, Nat.and_one_is_mod, Nat.shiftRight_eq_div_pow]
  exact decide_eq_decide.mpr (by omega)

theorem holds_slice (holds : Holds w a x) {i0 n : ℕ} (inside : i0 + n ≤ w) :
    Holds n (slice i0 a) (x / 2 ^ i0) := by
  intro i below
  rw [Nat.testBit_div_two_pow]
  exact holds (i + i0) (by omega)

theorem eq_of_testBit_lt {y : ℕ} (left : x < 2 ^ w) (right : y < 2 ^ w)
    (same : ∀ i < w, x.testBit i = y.testBit i) : x = y := by
  refine Nat.eq_of_testBit_eq fun i => ?_
  by_cases below : i < w
  · exact same i below
  · have far : 2 ^ w ≤ 2 ^ i := Nat.pow_le_pow_right (by norm_num) (by omega)
    rw [Nat.testBit_lt_two_pow (lt_of_lt_of_le left far),
      Nat.testBit_lt_two_pow (lt_of_lt_of_le right far)]

theorem veq_encodes (holds : Holds w a x) (left : x < 2 ^ w) {val : ℕ} (right : val < 2 ^ w) :
    (veq w a val).Encodes (decide (x = val)) := by
  have each : ∀ i < w, (lnot (lxor (a i) (vbit val i))).Encodes
      (decide (x.testBit i = val.testBit i)) :=
    fun i below => (holds i below).same (holds_vbit w val i below)
  refine (encodes_combine_land each le_rfl).congr (decide_eq_decide.mpr ?_)
  simp only [decide_eq_true_eq]
  exact ⟨fun all => eq_of_testBit_lt left right all, fun same i _ => by rw [same]⟩

theorem veqmask_encodes (holds : Holds w a x) (left : x < 2 ^ w) (mask : ℕ) {val : ℕ}
    (right : val < 2 ^ w) :
    (veqmask w a mask val).Encodes (decide (x &&& mask = val &&& mask)) := by
  unfold veqmask eq0
  let indices := (List.range w).filter fun i => mask.testBit i
  have length : (pack mask w fun i => lxor (a i) (vbit val i)).length = indices.length :=
    List.length_map _
  have entry : ∀ i < indices.length,
      (lnot ((pack mask w fun i => lxor (a i) (vbit val i)).getD i (bit 0))).Encodes
        (decide (x.testBit (indices.getD i 0) = val.testBit (indices.getD i 0))) := by
    intro i below
    have member : indices.getD i 0 ∈ indices := by
      rw [List.getD_eq_getElem _ _ below]
      exact List.getElem_mem below
    have inside : indices.getD i 0 < w := List.mem_range.mp (List.mem_filter.mp member).1
    have same : (pack mask w fun i => lxor (a i) (vbit val i)).getD i (bit 0) =
        lxor (a (indices.getD i 0)) (vbit val (indices.getD i 0)) := by
      rw [List.getD_eq_getElem _ _ (length.symm ▸ below), List.getD_eq_getElem _ _ below]
      exact List.getElem_map _
    rw [same]
    exact (holds _ inside).same (holds_vbit w val _ inside)
  dsimp only
  rw [length]
  refine (encodes_combine_land entry le_rfl).congr ?_
  simp only [decide_eq_true_eq]
  refine decide_eq_decide.mpr ⟨fun all => ?_, fun same i below => ?_⟩
  · refine eq_of_testBit_lt (lt_of_le_of_lt Nat.and_le_left left)
      (lt_of_le_of_lt Nat.and_le_left right) fun i below => ?_
    rw [Nat.testBit_and, Nat.testBit_and]
    by_cases selected : mask.testBit i = true
    · have member : i ∈ indices := List.mem_filter.mpr ⟨List.mem_range.mpr below, selected⟩
      obtain ⟨k, inside, found⟩ := List.mem_iff_getElem.mp member
      have equal := all k inside
      rw [List.getD_eq_getElem _ _ inside, found] at equal
      rw [equal]
    · rw [Bool.eq_false_iff.mpr selected, Bool.and_false, Bool.and_false]
  · have member : indices.getD i 0 ∈ indices := by
      rw [List.getD_eq_getElem _ _ below]
      exact List.getElem_mem below
    have selected := (List.mem_filter.mp member).2
    have equal := congrArg (fun y => y.testBit (indices.getD i 0)) same
    simpa only [Nat.testBit_and, selected, Bool.and_true] using equal

end Numbers

end Longfellow.CborV2
