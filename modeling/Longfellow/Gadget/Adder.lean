/-
**Additions and subtractions** (`circuits/arithmetic/src/circuit.rs`).

A subtraction compares every prefix of two vectors, as a parallel scan, and a bit of the difference
is right when the prefix below it has no borrow. An addition subtracts from the complement. An
asserted sum reads its carries off the bits of the sum.

* `gadgets_exact` — **the gates compute their truth tables, and the vectors integers**.
-/

import Longfellow.Gadget.Compare
import Longfellow.Lib.Scan

set_option linter.unusedSectionVars false

namespace Longfellow.Gadget

open Lib CompileField

variable {E : Type} [CompileField E] [DecidableEq E]

namespace Arithmetic

/-- Combine every entry with the entries before it. -/
def scan (reduce : Bitw E × Bitw E → Bitw E × Bitw E → Bitw E × Bitw E)
    (oarr : List (Bitw E × Bitw E)) : List (Bitw E × Bitw E) := sklansky reduce oarr

/-- The borrow into every bit, and out of the last one. -/
def borrowsOf (olteq : List (Bitw E × Bitw E)) : List (Bitw E) :=
  .false :: (scan ltReduce olteq).map Prod.snd

/-- The difference of two vectors, and the borrow. -/
def uncheckedSub (a b : List (Bitw E)) : Exec String (List (Bitw E) × Bitw E) := do
  ensure (a.length = b.length) "unchecked_sub: slice lengths must match"
  ensure (0 < a.length) "assertion failed: n > 0"
  let olteq := List.zipWith ltBase a b
  let carries := borrowsOf olteq
  return (List.zipWith (fun eq carry => Boolean.eqb eq.1 carry) olteq carries,
    carries.getLastD .false)

/-- The sum of two vectors, and the carry. -/
def uncheckedAdd (a b : List (Bitw E)) : Exec String (List (Bitw E) × Bitw E) := do
  ensure (a.length = b.length) "unchecked_add: slice lengths must match"
  let notA := a.map Boolean.notb
  let (c, carry) ← uncheckedSub notA b
  return (c.map Boolean.notb, carry)

def checkedAdd (a b : List (Bitw E)) : Exec String (List (Bitw E) × Assertions) := do
  ensure (a.length = b.length) "checked_add: slice lengths must match"
  let (sum, carry) ← uncheckedAdd a b
  return (sum, Boolean.assertFalse "no_carry" carry)

def checkedSub (a b : List (Bitw E)) : Exec String (List (Bitw E) × Assertions) := do
  ensure (a.length = b.length) "checked_sub: slice lengths must match"
  let (diff, borrow) ← uncheckedSub a b
  return (diff, Boolean.assertFalse "no_borrow" borrow)

/-- The carry into a bit, as the bits of a sum tell it. -/
def carryOf (c a b : List (Bitw E)) (i : ℕ) : Bitw E :=
  Boolean.xor3 (a.getD i .false) (b.getD i .false) (c.getD i .false)

/-- The carry out of a bit. -/
def carryFrom (c a b : List (Bitw E)) (i : ℕ) : Bitw E :=
  if i = 0 then Boolean.andb (a.getD 0 .false) (b.getD 0 .false)
  else Boolean.maj (carryOf c a b i) (a.getD i .false) (b.getD i .false)

/-- Assert that a vector is the sum of two, up to the carry. -/
def assertWrappingAdd (c a b : List (Bitw E)) : Exec String Assertions := do
  ensure (a.length = b.length) "assertion `left == right` failed"
  ensure (a.length = c.length) "assertion `left == right` failed"
  if a.length = 0 then return Logic.ok
  else
    let firstAssert := Boolean.assertEq "bit0" (c.getD 0 .false)
      (Boolean.xorb (a.getD 0 .false) (b.getD 0 .false))
    let restAssert := Logic.assertMapi "rest_assert" (List.range (a.length - 1)) fun i =>
      Boolean.assertEq "bit_carry" (carryOf c a b (i + 1)) (carryFrom c a b i)
    return Logic.assertAll "assert_wrapping_add" [firstAssert, restAssert]

/-- Assert that a vector is the sum of two, with no carry. -/
def assertCheckedAdd (c a b : List (Bitw E)) : Exec String Assertions := do
  ensure (a.length = b.length) "assertion `left == right` failed"
  ensure (a.length = c.length) "assertion `left == right` failed"
  if a.length = 0 then return Logic.ok
  else
    let carryOut := carryFrom c a b (a.length - 1)
    let wrapping ← assertWrappingAdd c a b
    let noCarry := Boolean.assertFalse "no_carry_out" carryOut
    return Logic.assertAll "assert_checked_add" [wrapping, noCarry]

/-! ### Bits -/

variable {xs ys zs : List Bool}

/-- The difference of two lists of bits, from a borrow on. -/
def differenceBits : Bool → List Bool → List Bool → List Bool × Bool
  | borrow, x :: xs, y :: ys =>
    let rest := differenceBits (y && !x || (x == y) && borrow) xs ys
    (((x == y) == borrow) :: rest.1, rest.2)
  | borrow, _, _ => ([], borrow)

/-- The sum of two lists of bits, from a carry on. -/
def sumBits : Bool → List Bool → List Bool → List Bool × Bool
  | carry, x :: xs, y :: ys =>
    let rest := sumBits (carry && x || (carry ^^ x) && y) xs ys
    ((x ^^ (y ^^ carry)) :: rest.1, rest.2)
  | carry, _, _ => ([], carry)

section

variable (size : xs.length = ys.length)
include size

theorem length_differenceBits (borrow : Bool) :
    (differenceBits borrow xs ys).1.length = xs.length := by
  induction xs generalizing ys borrow with
  | nil => rfl
  | cons x xs ih => cases ys with
    | nil => exact absurd size (Nat.succ_ne_zero _)
    | cons y ys => rw [differenceBits, List.length_cons, ih (Nat.succ.inj size), List.length_cons]

theorem length_sumBits (carry : Bool) :
    (sumBits carry xs ys).1.length = xs.length := by
  induction xs generalizing ys carry with
  | nil => rfl
  | cons x xs ih => cases ys with
    | nil => exact absurd size (Nat.succ_ne_zero _)
    | cons y ys => rw [sumBits, List.length_cons, ih (Nat.succ.inj size), List.length_cons]

/-- **The difference of the numbers**, with the borrows. -/
theorem natBits_difference (borrow : Bool) :
    natBits (differenceBits borrow xs ys).1 + natBits ys + borrow.toNat =
      natBits xs + 2 ^ xs.length * (differenceBits borrow xs ys).2.toNat := by
  induction xs generalizing ys borrow with
  | nil =>
    rw [List.eq_nil_of_length_eq_zero size.symm]
    simp [differenceBits, natBits]
  | cons x xs ih => cases ys with
    | nil => exact absurd size (Nat.succ_ne_zero _)
    | cons y ys =>
      have rest := ih (Nat.succ.inj size) (y && !x || (x == y) && borrow)
      have bit : ((x == y) == borrow).toNat + y.toNat + borrow.toNat =
          x.toNat + 2 * (y && !x || (x == y) && borrow).toNat := by
        cases x <;> cases y <;> cases borrow <;> rfl
      simp only [differenceBits, natBits_cons, List.length_cons, pow_succ']
      rw [Nat.mul_assoc]
      omega

/-- **The sum of the numbers**, with the carries. -/
theorem natBits_sum (carry : Bool) :
    natBits (sumBits carry xs ys).1 + 2 ^ xs.length * (sumBits carry xs ys).2.toNat =
      natBits xs + natBits ys + carry.toNat := by
  induction xs generalizing ys carry with
  | nil =>
    rw [List.eq_nil_of_length_eq_zero size.symm]
    simp [sumBits, natBits]
  | cons x xs ih => cases ys with
    | nil => exact absurd size (Nat.succ_ne_zero _)
    | cons y ys =>
      have rest := ih (Nat.succ.inj size) (carry && x || (carry ^^ x) && y)
      have bit : (x ^^ (y ^^ carry)).toNat + 2 * (carry && x || (carry ^^ x) && y).toNat =
          x.toNat + y.toNat + carry.toNat := by
        cases x <;> cases y <;> cases carry <;> rfl
      simp only [sumBits, natBits_cons, List.length_cons, pow_succ']
      rw [Nat.mul_assoc]
      omega

end

theorem natBits_not (xs : List Bool) : natBits (xs.map (!·)) + natBits xs + 1 = 2 ^ xs.length := by
  induction xs with
  | nil => rfl
  | cons x xs ih =>
    rw [List.map_cons, natBits_cons, natBits_cons, List.length_cons, pow_succ']
    cases x <;> simp <;> omega

theorem mod_of_carry {d total w : ℕ} {carry : Bool} (below : d < w)
    (split : d + w * carry.toNat = total) : d = total % w ∧ (carry = true ↔ w ≤ total) := by
  cases carry
  · rw [Bool.toNat_false, Nat.mul_zero, Nat.add_zero] at split
    rw [← split, Nat.mod_eq_of_lt below]
    simp [below]
  · rw [Bool.toNat_true, Nat.mul_one] at split
    rw [← split, Nat.add_mod_right, Nat.mod_eq_of_lt below]
    simp

/-! ### Vectors -/

/-- The bits of a vector spell a number of the same length. -/
def Spells (v : List (Bitw E)) (n value : ℕ) : Prop :=
  ∃ bits, List.Forall₂ Bitw.Encodes v bits ∧ bits.length = n ∧ natBits bits = value

variable {a b c : List (Bitw E)}

theorem difference_prefixes (size : xs.length = ys.length) (acc : Bool × Bool) :
    let pairs := List.zipWith (fun x y => (x == y, y && !x)) xs ys
    let borrows := acc.2 :: (prefixes ltOp acc pairs).map Prod.snd
    List.zipWith (fun eq borrow => eq.1 == borrow) pairs borrows = (differenceBits acc.2 xs ys).1 ∧
    borrows.getLastD false = (differenceBits acc.2 xs ys).2 := by
  induction xs generalizing ys acc with
  | nil =>
    rw [List.eq_nil_of_length_eq_zero size.symm]
    exact ⟨rfl, rfl⟩
  | cons x xs ih => cases ys with
    | nil => exact absurd size (Nat.succ_ne_zero _)
    | cons y ys =>
      obtain ⟨bits, last⟩ := ih (Nat.succ.inj size) (ltOp acc (x == y, y && !x))
      exact ⟨congrArg _ bits, last⟩

section Unchecked

variable (each : List.Forall₂ Bitw.Encodes a xs) (each' : List.Forall₂ Bitw.Encodes b ys)
  (size : xs.length = ys.length) (some : xs ≠ [])

include each each' size some

/-- **A subtraction** computes the bits of the difference, and the borrow. -/
theorem uncheckedSub_bits :
    ∃ d borrow, uncheckedSub a b = .ok (d, borrow) ∧
      List.Forall₂ Bitw.Encodes d (differenceBits false xs ys).1 ∧
      borrow.Encodes (differenceBits false xs ys).2 := by
  obtain ⟨bits, last⟩ := difference_prefixes size (true, false)
  have pairs : List.Forall₂ LtPair (List.zipWith ltBase a b)
      (List.zipWith (fun x y => (x == y, y && !x)) xs ys) :=
    forall₂_zipWith (f := ltBase) (g := fun x y => (x == y, y && !x)) ltBase_pair each each'
  have scanned := sklansky_rel LtPair ltOp_assoc ltOp_left ltOp_right ltReduce_pair pairs
  have carries : List.Forall₂ Bitw.Encodes (borrowsOf (List.zipWith ltBase a b))
      (false :: (prefixes ltOp (true, false)
        (List.zipWith (fun x y => (x == y, y && !x)) xs ys)).map Prod.snd) := by
    refine .cons rfl ?_
    rw [List.forall₂_map_left_iff, List.forall₂_map_right_iff]
    exact scanned.imp fun _ _ pair => pair.2.1
  refine ⟨List.zipWith (fun eq carry => Boolean.eqb eq.1 carry) (List.zipWith ltBase a b)
    (borrowsOf (List.zipWith ltBase a b)), (borrowsOf (List.zipWith ltBase a b)).getLastD .false,
    ?_, ?_, ?_⟩
  · rw [uncheckedSub, ensure_of (by rw [each.length_eq, each'.length_eq, size]), ok_bind,
      ensure_of (by rw [each.length_eq]; exact List.length_pos_of_ne_nil some), ok_bind, pure_eq_ok]
  · rw [← bits]
    exact forall₂_zipWith (f := fun eq carry => Boolean.eqb eq.1 carry)
      (g := fun eq borrow => eq.1 == borrow)
      (fun pair carry => Boolean.eqb_encodes pair.1 carry) pairs carries
  · rw [← last]
    exact getLastD_rel carries rfl

theorem uncheckedSub_returns :
    ∃ d borrow, uncheckedSub a b = .ok (d, borrow) ∧
      Spells d xs.length ((2 ^ xs.length + natBits xs - natBits ys) % 2 ^ xs.length) ∧
      borrow.Encodes (decide (natBits xs < natBits ys)) := by
  obtain ⟨d, borrow, ran, bits, last⟩ := uncheckedSub_bits each each' size some
  have sized := length_differenceBits size false
  have below := natBits_lt (differenceBits false xs ys).1
  have split := natBits_difference size false
  have small := natBits_lt ys
  have small' := natBits_lt xs
  rw [sized] at below
  rw [← size] at small
  rw [Bool.toNat_false, Nat.add_zero] at split
  refine ⟨d, borrow, ran, ⟨_, bits, sized, ?_⟩, ?_⟩
  · cases lent : (differenceBits false xs ys).2
    · rw [lent, Bool.toNat_false, Nat.mul_zero, Nat.add_zero] at split
      rw [Nat.add_sub_assoc (by omega), Nat.add_mod_left, Nat.mod_eq_of_lt (by omega)]
      omega
    · rw [lent, Bool.toNat_true, Nat.mul_one] at split
      rw [Nat.mod_eq_of_lt (by omega)]
      omega
  · have lent : (differenceBits false xs ys).2 = decide (natBits xs < natBits ys) := by
      rw [Bool.eq_iff_iff, decide_eq_true_iff]
      cases found : (differenceBits false xs ys).2
      · rw [found, Bool.toNat_false, Nat.mul_zero] at split
        simp only [Bool.false_eq_true, false_iff]
        omega
      · rw [found, Bool.toNat_true, Nat.mul_one] at split
        simp only [true_iff]
        omega
    exact lent ▸ last

/-- **An addition** computes the sum up to the carry, and the carry. -/
theorem uncheckedAdd_returns :
    ∃ s carry, uncheckedAdd a b = .ok (s, carry) ∧
      Spells s xs.length ((natBits xs + natBits ys) % 2 ^ xs.length) ∧
      carry.Encodes (decide (2 ^ xs.length ≤ natBits xs + natBits ys)) := by
  have flipped : ∀ {v : List (Bitw E)} {bits : List Bool}, List.Forall₂ Bitw.Encodes v bits →
      List.Forall₂ Bitw.Encodes (v.map Boolean.notb) (bits.map (!·)) := by
    intro v bits related
    rw [List.forall₂_map_left_iff, List.forall₂_map_right_iff]
    exact related.imp fun _ _ => Boolean.notb_encodes
  obtain ⟨d, carry, ran, bits, last⟩ := uncheckedSub_bits (flipped each) each'
    (by rw [List.length_map, size]) (by simpa using some)
  have size' : (xs.map (!·)).length = ys.length := by rw [List.length_map, size]
  have sized := length_differenceBits size' false
  have split := natBits_difference size' false
  generalize differenceBits false (xs.map (!·)) ys = r at bits last sized split
  obtain ⟨ds, lent⟩ := r
  dsimp only at bits last sized split
  rw [List.length_map] at sized split
  have whole := natBits_not ds
  have whole' := natBits_not xs
  have below := natBits_lt (ds.map (!·))
  rw [sized] at whole
  rw [List.length_map, sized] at below
  have total : natBits (ds.map (!·)) + 2 ^ xs.length * lent.toNat = natBits xs + natBits ys := by
    rw [Bool.toNat_false] at split
    omega
  obtain ⟨rest, exceeds⟩ := mod_of_carry below total
  refine ⟨d.map Boolean.notb, carry, ?_, ⟨_, flipped bits, by rw [List.length_map, sized], rest⟩, ?_⟩
  · dsimp only [uncheckedAdd]
    rw [ensure_of (by rw [each.length_eq, each'.length_eq, size]), ok_bind, ran]
    rfl
  · have found : lent = decide (2 ^ xs.length ≤ natBits xs + natBits ys) := by
      rw [Bool.eq_iff_iff, decide_eq_true_iff, exceeds]
    exact found ▸ last

end Unchecked

/-! ### Asserted sums -/

/-- The carry out of a bit with a carry in. -/
def nextCarry (carry x y : Bool) : Bool := carry && x || (carry ^^ x) && y

/-- The carry into a bit, as the bits of a sum tell it. -/
def toldCarry (zs xs ys : List Bool) (i : ℕ) : Bool :=
  xs.getD i false ^^ (ys.getD i false ^^ zs.getD i false)

/-- **The bits are those of the sum** exactly when the carries that they tell follow each other. -/
theorem sum_iff_carries (size : xs.length = ys.length) (size' : xs.length = zs.length)
    (carry : Bool) :
    zs = (sumBits carry xs ys).1 ↔ (0 < xs.length → toldCarry zs xs ys 0 = carry) ∧
      ∀ i, i + 1 < xs.length → toldCarry zs xs ys (i + 1) =
        nextCarry (toldCarry zs xs ys i) (xs.getD i false) (ys.getD i false) := by
  induction xs generalizing ys zs carry with
  | nil =>
    rw [List.eq_nil_of_length_eq_zero size'.symm]
    simp [sumBits]
  | cons x xs ih => match ys, zs with
    | y :: ys, z :: zs =>
      have rest := ih (Nat.succ.inj size) (Nat.succ.inj size') (nextCarry carry x y)
      have first : z = (x ^^ (y ^^ carry)) ↔ toldCarry (z :: zs) (x :: xs) (y :: ys) 0 = carry := by
        simp only [toldCarry, List.getD_cons_zero]
        cases x <;> cases y <;> cases z <;> cases carry <;> decide
      rw [sumBits, List.cons.injEq, first]
      change _ ∧ zs = (sumBits (nextCarry carry x y) xs ys).1 ↔ _
      rw [rest]
      constructor
      · rintro ⟨into, next, later⟩
        refine ⟨fun _ => into, fun i inside => ?_⟩
        cases i with
        | zero =>
          rw [into]
          exact next (by simpa using inside)
        | succ i => exact later i (by simpa using inside)
      · rintro ⟨into, later⟩
        have here := into (Nat.succ_pos _)
        refine ⟨here, fun more => ?_, fun i inside => later (i + 1) (by simpa using inside)⟩
        have next := later 0 (by simpa using more)
        rwa [here] at next

theorem last_carry (size : xs.length = ys.length) (some : xs ≠ []) (carry : Bool) :
    (sumBits carry xs ys).2 =
      nextCarry (toldCarry (sumBits carry xs ys).1 xs ys (xs.length - 1))
        (xs.getD (xs.length - 1) false) (ys.getD (xs.length - 1) false) := by
  induction xs generalizing ys carry with
  | nil => exact absurd rfl some
  | cons x xs ih => cases ys with
    | nil => exact absurd size (Nat.succ_ne_zero _)
    | cons y ys =>
      have told : toldCarry (sumBits carry (x :: xs) (y :: ys)).1 (x :: xs) (y :: ys) 0 = carry := by
        simp only [toldCarry, sumBits, List.getD_cons_zero]
        cases x <;> cases y <;> cases carry <;> rfl
      cases xs with
      | nil =>
        rw [List.eq_nil_of_length_eq_zero (Nat.succ.inj size).symm] at told ⊢
        exact (congrArg (nextCarry · x y) told).symm
      | cons x' xs => exact ih (Nat.succ.inj size) (List.cons_ne_nil _ _) (nextCarry carry x y)

theorem bit_at (each : List.Forall₂ Bitw.Encodes a xs) (i : ℕ) :
    (a.getD i .false).Encodes (xs.getD i false) :=
  getD_related each (show (Bitw.false : Bitw E).Encodes false from rfl) i

section Asserted

variable (each : List.Forall₂ Bitw.Encodes a xs) (each' : List.Forall₂ Bitw.Encodes b ys)
  (total : List.Forall₂ Bitw.Encodes c zs)

include each each' total

theorem carryOf_encodes (i : ℕ) :
    (carryOf c a b i).Encodes (toldCarry zs xs ys i) :=
  Boolean.xor3_encodes (bit_at each i) (bit_at each' i)
    (bit_at total i)

theorem carryFrom_encodes (none : toldCarry zs xs ys 0 = false) (i : ℕ) :
    (carryFrom c a b i).Encodes
      (nextCarry (toldCarry zs xs ys i) (xs.getD i false) (ys.getD i false)) := by
  unfold carryFrom
  by_cases low : i = 0
  · rw [if_pos low, low, none, nextCarry, Bool.false_and, Bool.false_or, Bool.false_xor]
    exact Boolean.andb_encodes (bit_at each 0) (bit_at each' 0)
  · rw [if_neg low]
    exact Boolean.maj_encodes (carryOf_encodes each each' total i) (bit_at each i)
      (bit_at each' i)

variable (size : xs.length = ys.length) (size' : xs.length = zs.length)

include size size'

/-- **An asserted sum** holds exactly when the bits are those of the sum. -/
theorem assertWrappingAdd_bits :
    ∃ held, assertWrappingAdd c a b = .ok held ∧ (held = true ↔ zs = (sumBits false xs ys).1) := by
  unfold assertWrappingAdd
  rw [ensure_of (by rw [each.length_eq, each'.length_eq, size]), ok_bind,
    ensure_of (by rw [each.length_eq, total.length_eq, size']), ok_bind, each.length_eq]
  by_cases empty : xs.length = 0
  · rw [if_pos empty]
    refine ⟨_, rfl, iff_of_true rfl ?_⟩
    rw [List.eq_nil_of_length_eq_zero empty,
      List.eq_nil_of_length_eq_zero (by omega : zs.length = 0)]
    rfl
  · rw [if_neg empty]
    refine ⟨_, rfl, ?_⟩
    rw [assertAll_two, assertMapi_iff, sum_iff_carries size size' false]
    have first : Boolean.assertEq "bit0" (c.getD 0 .false)
        (Boolean.xorb (a.getD 0 .false) (b.getD 0 .false)) = true ↔
        toldCarry zs xs ys 0 = false := by
      rw [Boolean.assertEq_iff (bit_at total 0)
        (Boolean.xorb_encodes (bit_at each 0) (bit_at each' 0)), toldCarry]
      cases xs.getD 0 false <;> cases ys.getD 0 false <;> cases zs.getD 0 false <;> decide
    rw [first]
    refine and_congr_left' ?_ |>.trans (and_congr_right fun none => ?_)
    · exact ⟨fun told _ => told, fun told => told (Nat.pos_of_ne_zero empty)⟩
    · have lowest := none (Nat.pos_of_ne_zero empty)
      simp only [List.mem_range]
      refine forall_congr' fun i => ?_
      rw [Boolean.assertEq_iff (carryOf_encodes each each' total (i + 1))
        (carryFrom_encodes each each' total lowest i)]
      exact imp_congr_left (by omega)

theorem assertWrappingAdd_returns :
    ∃ held, assertWrappingAdd c a b = .ok held ∧
      (held = true ↔ natBits zs = (natBits xs + natBits ys) % 2 ^ xs.length) := by
  obtain ⟨held, ran, holds⟩ := assertWrappingAdd_bits each each' total size size'
  have sized := length_sumBits size false
  have below := natBits_lt (sumBits false xs ys).1
  rw [sized] at below
  obtain ⟨rest, -⟩ := mod_of_carry below (natBits_sum size false)
  rw [Bool.toNat_false, Nat.add_zero] at rest
  refine ⟨held, ran, holds.trans ?_⟩
  rw [← rest]
  exact ⟨congrArg natBits, natBits_injective (sized.trans size').symm⟩

/-- **An asserted sum with no carry** holds exactly when the numbers add up. -/
theorem assertCheckedAdd_returns :
    ∃ held, assertCheckedAdd c a b = .ok held ∧
      (held = true ↔ natBits zs = natBits xs + natBits ys) := by
  unfold assertCheckedAdd
  rw [ensure_of (by rw [each.length_eq, each'.length_eq, size]), ok_bind,
    ensure_of (by rw [each.length_eq, total.length_eq, size']), ok_bind, each.length_eq]
  by_cases empty : xs.length = 0
  · rw [if_pos empty]
    refine ⟨_, rfl, iff_of_true rfl ?_⟩
    rw [List.eq_nil_of_length_eq_zero empty,
      List.eq_nil_of_length_eq_zero (by omega : ys.length = 0),
      List.eq_nil_of_length_eq_zero (by omega : zs.length = 0)]
    rfl
  · rw [if_neg empty]
    obtain ⟨held, ran, holds⟩ := assertWrappingAdd_bits each each' total size size'
    dsimp only
    refine ⟨_, by rw [ran, ok_bind, pure_eq_ok], ?_⟩
    have some : xs ≠ [] := fun none => empty (by rw [none, List.length_nil])
    have sized := length_sumBits size false
    have split := natBits_sum size false
    rw [Bool.toNat_false, Nat.add_zero] at split
    rw [assertAll_two, holds]
    have carried : zs = (sumBits false xs ys).1 →
        (Boolean.assertFalse "no_carry_out" (carryFrom c a b (xs.length - 1)) = true ↔
          (sumBits false xs ys).2 = false) := by
      intro same
      have none := ((sum_iff_carries size size' false).mp same).1 (List.length_pos_of_ne_nil some)
      rw [Boolean.assertFalse_iff (carryFrom_encodes each each' total none _),
        last_carry size some false, ← same]
    constructor
    · rintro ⟨same, last⟩
      rw [(carried same).mp last, Bool.toNat_false, Nat.mul_zero, Nat.add_zero, ← same] at split
      exact split
    · intro adds
      have below := natBits_lt zs
      rw [← size'] at below
      have none : (sumBits false xs ys).2 = false := by
        cases found : (sumBits false xs ys).2
        · rfl
        · rw [found, Bool.toNat_true, Nat.mul_one] at split
          omega
      rw [none, Bool.toNat_false, Nat.mul_zero, Nat.add_zero] at split
      have same := natBits_injective (sized.trans size').symm (adds.trans split.symm)
      exact ⟨same, (carried same).mpr none⟩

end Asserted

end Arithmetic

/-! ### Truth tables and integers -/

/-- **The gates compute their truth tables**, on bits that stand for given truth values. -/
structure Boolean.TruthTables (a b c : Bitw E) (s t u : Bool) : Prop where
  negation : (notb a).Encodes (!s)
  conjunction : (andb a b).Encodes (s && t)
  treeConjunction : (treeAndb a b).Encodes (s && t)
  disjunction : (orb a b).Encodes (s || t)
  treeDisjunction : (treeOrb a b).Encodes (s || t)
  disjoint : ¬ (s = true ∧ t = true) → (orAssumingAtMostOneTrue a b).Encodes (s || t)
  exclusive : (xorb a b).Encodes (s ^^ t)
  treeExclusive : (treeXorb a b).Encodes (s ^^ t)
  equality : (eqb a b).Encodes (s == t)
  inequality : (neqb a b).Encodes (s != t)
  selection : (muxb a b c).Encodes (if s then t else u)
  majority : (maj a b c).Encodes (s && t || s && u || t && u)
  threeExclusive : (xor3 a b c).Encodes (s ^^ (t ^^ u))
  implication : (impliesb a b).Encodes (!s || t)
  order : (ltb a b).Encodes (decide (s < t))
  lane : (chiLaneb a b c).Encodes (s ^^ (!t && u))
  element : (asEltw a).Is (bit E s)
  assertsFalse : ∀ name, assertFalse name a = true ↔ s = false
  assertsTrue : ∀ name, assertTrue name a = true ↔ s = true
  assertsEqual : ∀ name, assertEq name a b = true ↔ s = t

theorem Boolean.truthTables {a b c : Bitw E} {s t u : Bool} (ha : a.Encodes s) (hb : b.Encodes t)
    (hc : c.Encodes u) : TruthTables a b c s t u where
  negation := notb_encodes ha
  conjunction := andb_encodes ha hb
  treeConjunction := treeAndb_encodes ha hb
  disjunction := orb_encodes ha hb
  treeDisjunction := treeOrb_encodes ha hb
  disjoint := orAssumingAtMostOneTrue_encodes ha hb
  exclusive := xorb_encodes ha hb
  treeExclusive := treeXorb_encodes ha hb
  equality := eqb_encodes ha hb
  inequality := neqb_encodes ha hb
  selection := muxb_encodes ha hb hc
  majority := by
    have told := maj_encodes ha hb hc
    rwa [show (s && t || (s ^^ t) && u) = (s && t || s && u || t && u) by
      cases s <;> cases t <;> cases u <;> rfl] at told
  threeExclusive := xor3_encodes ha hb hc
  implication := by
    have told := impliesb_encodes ha hb
    rwa [Bool.or_comm] at told
  order := by
    have told := ltb_encodes ha hb
    rwa [show (t && !s) = decide (s < t) by cases s <;> cases t <;> rfl] at told
  lane := chiLaneb_encodes ha hb hc
  element := asEltw_is ha
  assertsFalse _ := assertFalse_iff ha
  assertsTrue _ := assertTrue_iff ha
  assertsEqual _ := assertEq_iff ha hb

/-- **The vectors are added, subtracted and compared as integers.** -/
structure Arithmetic.Integers (a b c : List (Bitw E)) (n x y z : ℕ) : Prop where
  difference : ∃ d borrow, uncheckedSub a b = .ok (d, borrow) ∧
    Spells d n ((2 ^ n + x - y) % 2 ^ n) ∧ borrow.Encodes (decide (x < y))
  sum : ∃ s carry, uncheckedAdd a b = .ok (s, carry) ∧
    Spells s n ((x + y) % 2 ^ n) ∧ carry.Encodes (decide (2 ^ n ≤ x + y))
  less : ∃ r, lt a b = .ok r ∧ r.Encodes (decide (x < y))
  lessOrEqual : ∃ r, leq a b = .ok r ∧ r.Encodes (decide (x ≤ y))
  checkedDifference : ∃ d held, checkedSub a b = .ok (d, held) ∧
    Spells d n ((2 ^ n + x - y) % 2 ^ n) ∧ (held = true ↔ y ≤ x)
  checkedSum : ∃ s held, checkedAdd a b = .ok (s, held) ∧
    Spells s n ((x + y) % 2 ^ n) ∧ (held = true ↔ x + y < 2 ^ n)
  wrappingSum : ∃ held, assertWrappingAdd c a b = .ok held ∧ (held = true ↔ z = (x + y) % 2 ^ n)
  assertedSum : ∃ held, assertCheckedAdd c a b = .ok held ∧ (held = true ↔ z = x + y)

section Vectors

open Arithmetic

variable {a b c : List (Bitw E)} {xs ys zs : List Bool}

section

variable (each : List.Forall₂ Bitw.Encodes a xs) (each' : List.Forall₂ Bitw.Encodes b ys)
  (size : xs.length = ys.length) (some : xs ≠ [])
include each each' size some

theorem Arithmetic.checkedAdd_returns :
    ∃ s held, checkedAdd a b = .ok (s, held) ∧
      Spells s xs.length ((natBits xs + natBits ys) % 2 ^ xs.length) ∧
      (held = true ↔ natBits xs + natBits ys < 2 ^ xs.length) := by
  obtain ⟨s, carry, ran, spells, carried⟩ := uncheckedAdd_returns each each' size some
  refine ⟨s, Boolean.assertFalse "no_carry" carry, ?_, spells, ?_⟩
  · rw [checkedAdd, ensure_of (by rw [each.length_eq, each'.length_eq, size]), ok_bind, ran]
    rfl
  · rw [Boolean.assertFalse_iff carried, decide_eq_false_iff_not, Nat.not_le]

theorem Arithmetic.checkedSub_returns :
    ∃ d held, checkedSub a b = .ok (d, held) ∧
      Spells d xs.length ((2 ^ xs.length + natBits xs - natBits ys) % 2 ^ xs.length) ∧
      (held = true ↔ natBits ys ≤ natBits xs) := by
  obtain ⟨d, borrow, ran, spells, borrowed⟩ := uncheckedSub_returns each each' size some
  refine ⟨d, Boolean.assertFalse "no_borrow" borrow, ?_, spells, ?_⟩
  · rw [checkedSub, ensure_of (by rw [each.length_eq, each'.length_eq, size]), ok_bind, ran]
    rfl
  · rw [Boolean.assertFalse_iff borrowed, decide_eq_false_iff_not, Nat.not_lt]

end

/-- **The gates compute their truth tables, and the vectors integers**, whatever the
representations of the bits are. -/
theorem gadgets_exact {r q p : Bitw E} {s t u : Bool} (hr : r.Encodes s) (hq : q.Encodes t)
    (hp : p.Encodes u) (each : List.Forall₂ Bitw.Encodes a xs)
    (each' : List.Forall₂ Bitw.Encodes b ys) (total : List.Forall₂ Bitw.Encodes c zs)
    (size : xs.length = ys.length) (size' : xs.length = zs.length) (some : xs ≠ []) :
    Boolean.TruthTables r q p s t u ∧
      Arithmetic.Integers a b c xs.length (natBits xs) (natBits ys) (natBits zs) where
  left := Boolean.truthTables hr hq hp
  right := {
    difference := uncheckedSub_returns each each' size some
    sum := uncheckedAdd_returns each each' size some
    less := lt_returns each each' size
    lessOrEqual := leq_returns each each' size
    checkedDifference := checkedSub_returns each each' size some
    checkedSum := checkedAdd_returns each each' size some
    wrappingSum := assertWrappingAdd_returns each each' total size size'
    assertedSum := assertCheckedAdd_returns each each' total size size' }

/-- Six and three, in each field, with bits of several representations. -/
theorem gadgets_exact_three :
    (∃ a b c : List (Bitw (ZMod 3)), Arithmetic.Integers a b c 3 6 3 1) ∧
      ∃ a b c : List (Bitw Gf2128Elt), Arithmetic.Integers a b c 3 6 3 1 := by
  have one : (Bitw.true : Bitw (ZMod 3)).Encodes true := rfl
  have one' : (Bitw.true : Bitw Gf2128Elt).Encodes true := rfl
  have six : List.Forall₂ Bitw.Encodes
      [.false, .p (Logic.konst (1 : ZMod 3)), .n (Logic.konst 0)] [false, true, true] :=
    .cons rfl (.cons ⟨rfl, rfl⟩ (.cons ⟨rfl, rfl⟩ .nil))
  have three : List.Forall₂ Bitw.Encodes
      [.true, .x (by decide) (Logic.konst (-1 : ZMod 3)), .p (Logic.konst 0)]
      [true, true, false] :=
    .cons rfl (.cons ⟨rfl, rfl⟩ (.cons ⟨rfl, rfl⟩ .nil))
  have rest : List.Forall₂ Bitw.Encodes ([.true, .false, .false] : List (Bitw (ZMod 3)))
      [true, false, false] := .cons rfl (.cons rfl (.cons rfl .nil))
  have six' : List.Forall₂ Bitw.Encodes
      [.false, .p (Logic.konst (1 : Gf2128Elt)), .n (Logic.konst 0)] [false, true, true] :=
    .cons rfl (.cons ⟨rfl, rfl⟩ (.cons ⟨rfl, rfl⟩ .nil))
  have three' : List.Forall₂ Bitw.Encodes
      [.true, .true, .p (Logic.konst (0 : Gf2128Elt))] [true, true, false] :=
    .cons rfl (.cons rfl (.cons ⟨rfl, rfl⟩ .nil))
  have rest' : List.Forall₂ Bitw.Encodes ([.true, .false, .false] : List (Bitw Gf2128Elt))
      [true, false, false] := .cons rfl (.cons rfl (.cons rfl .nil))
  exact ⟨⟨_, _, _, (gadgets_exact one one one six three rest rfl rfl (by decide)).2⟩,
    ⟨_, _, _, (gadgets_exact one' one' one' six' three' rest' rfl rfl (by decide)).2⟩⟩

end Vectors

end Longfellow.Gadget
