/-
**The operations of a prime field on Montgomery forms.**

* `invertStep_returns`, `invert_form` — **the inversion loop**: a round halves the product of the
  two numbers, and each number keeps its quotient by the inverted element.
-/

import Longfellow.Algebra.Montgomery
import Mathlib.Algebra.Field.ZMod
import Mathlib.Tactic.FieldSimp

namespace Longfellow.FpGeneric

open Lib Limb

variable {n : ℕ}

/-- Limbs of a canonical number that is `c` modulo `m`. -/
structure IsResidue (L m : ℕ) (e : List (BitVec n)) (c : ZMod m) : Prop where
  length : e.length = L
  canonical : wordsVal e < m
  value : (wordsVal e : ZMod m) = c

section

variable {L m : ℕ} {modulo negm : List (BitVec n)} {mPrime : BitVec n}

variable {e : List (BitVec n)}

theorem IsResidue.congr {c d : ZMod m} (residue : IsResidue L m e c) (same : c = d) :
    IsResidue L m e d := same ▸ residue

theorem IsResidue.unique {f : List (BitVec n)} {c : ZMod m} (left : IsResidue L m e c)
    (right : IsResidue L m f c) : e = f := by
  apply wordsVal_injective (left.length.trans right.length.symm)
  have same := (ZMod.natCast_eq_natCast_iff' _ _ _).mp (left.value.trans right.value.symm)
  rwa [Nat.mod_eq_of_lt left.canonical, Nat.mod_eq_of_lt right.canonical] at same

section

variable {y x : ZMod m} {b a : List (BitVec n)} (constants : Constants L modulo negm mPrime m)
  (left : IsResidue L m a x) (right : IsResidue L m b y)
include constants left right

theorem accumModular_residue :
    IsResidue L m (accumModular a b negm) (x + y) := by
  have sizes := left.length.trans right.length.symm
  obtain ⟨length, low, value⟩ := accumModular_spec (m := m) (Nat.zero_lt_of_lt constants.wide)
    constants.narrow sizes (left.length.trans constants.negLength.symm)
    (by rw [left.length]; exact constants.opposite) left.canonical right.canonical
  refine ⟨length.trans left.length, low, ?_⟩
  rw [← left.value, ← right.value, ← Nat.cast_add]
  rcases value with equal | equal
  · rw [equal]
  · rw [← equal, Nat.cast_add, ZMod.natCast_self, add_zero]

theorem subModular_residue :
    IsResidue L m (maybePlusM (subLimb a b).1 (subLimb a b).2 modulo) (x - y) := by
  have value := constants.value
  obtain ⟨length, low, value'⟩ := maybePlusM_spec
    (Nat.zero_lt_of_lt constants.wide) constants.narrow
    (left.length.trans right.length.symm) (left.length.trans constants.length.symm)
    (value ▸ left.canonical) (value ▸ right.canonical)
  refine ⟨length.trans left.length, value ▸ low, ?_⟩
  rw [eq_sub_iff_add_eq, ← left.value, ← right.value, ← Nat.cast_add]
  rcases value' with equal | equal
  · rw [equal]
  · rw [equal, value, Nat.cast_add, ZMod.natCast_self, add_zero]

end

theorem doubleModular_iterate (constants : Constants L modulo negm mPrime m) {c : ZMod m}
    (residue : IsResidue L m e c) (k : ℕ) :
    IsResidue L m ((doubleModular negm)^[k] e) (2 ^ k * c) := by
  induction k with
  | zero => simpa using residue
  | succ k ih =>
    rw [Function.iterate_succ_apply']
    refine (accumModular_residue constants ih ih).congr ?_
    rw [pow_succ]
    ring

theorem oneLimbs_residue (constants : Constants L modulo negm mPrime m) (large : 1 < m) :
    IsResidue L m (oneLimbs n L) 1 := by
  have value := oneLimbs_val (Nat.zero_lt_of_lt constants.wide) constants.some
  refine ⟨oneLimbs_length n L, by rw [value]; exact large, by rw [value, Nat.cast_one]⟩

theorem zero_residue (positive : 0 < m) : IsResidue L m (List.replicate L 0#n) 0 :=
  ⟨List.length_replicate, by rw [wordsVal_replicate_zero]; exact positive,
    by rw [wordsVal_replicate_zero, Nat.cast_zero]⟩

/-- The product of residues, up to the factor `R`. -/
theorem montgomeryMul_residue (constants : Constants L modulo negm mPrime m) (small : L ≤ 16)
    {a b : List (BitVec n)} {y : ZMod m} (left : a.length = L) (right : IsResidue L m b y) :
    ∃ c, montgomeryMul L a b modulo negm mPrime = .ok c ∧
      ∀ z : ZMod m, IsUnit (2 : ZMod m) → z * (2 ^ n) ^ L = wordsVal a * y →
        IsResidue L m c z := by
  obtain ⟨c, ran, length, low, value⟩ := montgomeryMul_returns constants small left right.length
    right.canonical
  refine ⟨c, ran, fun z unit product => ⟨length, low, ?_⟩⟩
  have radix : IsUnit (((2 ^ n) ^ L : ℕ) : ZMod m) := by
    push_cast
    exact (unit.pow n).pow L
  apply radix.mul_right_cancel
  rw [value, right.value, ← product]
  push_cast
  rfl

end

/-! ### The constructor -/

variable {width : Width}

/-- The numeral two of a ring. -/
local instance two_atLeastTwo : Nat.AtLeastTwo 2 := inferInstance

/-- **What an admitted field holds**, for the modulus `m`. -/
structure Valid (F : FpGenericField width) (m : ℕ) : Prop where
  constants : Constants F.L F.modulo F.negModulo F.mPrime m
  limbs : F.L = F.W * width.perU64
  room : 2 * F.L < F.accumL
  scratch : F.accumL + F.L < 64
  odd : m % 2 = 1
  large : 1 < m
  r2 : IsResidue F.L m F.r2 ((2 ^ width.bits) ^ (2 * F.L))
  r : IsResidue F.L m F.r ((2 ^ width.bits) ^ F.L)
  accumScale : IsResidue F.L m F.accumScale ((2 ^ width.bits) ^ F.accumL)
  rawHalf : F.rawHalf.length = F.L ∧ 2 * wordsVal F.rawHalf = m + 1

section

variable (positive : 0 < n) (x : BitVec n)
include positive x

theorem and_one_toNat : (x &&& 1).toNat = x.toNat % 2 := by
  rw [BitVec.toNat_and, BitVec.ofNat_eq_ofNat, BitVec.toNat_ofNat,
    Nat.mod_eq_of_lt (Nat.one_lt_two_pow (by omega)), Nat.and_one_is_mod]

theorem and_one_eq_one : x &&& 1 = 1 ↔ x.toNat % 2 = 1 := by
  rw [← and_one_toNat positive, ← BitVec.toNat_inj, BitVec.ofNat_eq_ofNat, BitVec.toNat_ofNat,
    Nat.mod_eq_of_lt (Nat.one_lt_two_pow (by omega))]

theorem and_one_eq_zero : x &&& 1 = 0 ↔ x.toNat % 2 = 0 := by
  rw [← and_one_toNat positive, ← BitVec.toNat_inj]
  exact Iff.rfl

theorem wordsVal_parity (xs : List (BitVec n)) :
    wordsVal (x :: xs) % 2 = x.toNat % 2 := by
  obtain ⟨k, rfl⟩ : ∃ k, n = k + 1 := ⟨n - 1, by omega⟩
  rw [wordsVal_cons, pow_succ', Nat.mul_assoc, Nat.add_mul_mod_self_left]

end

theorem isOneSlice_iff (positive : 0 < n) {a : List (BitVec n)} (some : a ≠ []) :
    isOneSlice a = true ↔ wordsVal a = 1 := by
  have one : (1#n).toNat = 1 := by
    rw [BitVec.toNat_ofNat, Nat.mod_eq_of_lt (Nat.one_lt_two_pow (by omega))]
  cases a with
  | nil => exact absurd rfl some
  | cons x xs =>
    have radix : 2 ≤ 2 ^ n := Nat.pow_le_pow_right (n := 2) (by decide) positive
    have rest : xs.all (· == 0#n) = true ↔ wordsVal xs = 0 := by
      rw [wordsVal_eq_zero, List.all_eq_true, List.eq_replicate_iff]
      simp
    simp only [isOneSlice, List.head?_cons, List.tail_cons, Bool.and_eq_true, rest,
      wordsVal_cons, beq_iff_eq, Option.some.injEq]
    rw [← BitVec.toNat_inj, one]
    constructor
    · rintro ⟨first, zero⟩
      rw [first, zero, Nat.mul_zero]
    · intro sum
      have zero : wordsVal xs = 0 := by
        by_contra more
        have := Nat.mul_le_mul radix (Nat.pos_of_ne_zero more)
        omega
      rw [zero, Nat.mul_zero] at sum
      exact ⟨sum, zero⟩

theorem constants_of_odd (wide : 2 ≤ n) (narrow : n ≤ 64) {m0 : BitVec n}
    {rest : List (BitVec n)} (odd : wordsVal (m0 :: rest) % 2 = 1) :
    Constants (m0 :: rest).length (m0 :: rest)
      (subLimb (List.replicate (m0 :: rest).length 0) (m0 :: rest)).1 (computeMPrime m0)
      (wordsVal (m0 :: rest)) := by
  have positive := Nat.zero_lt_of_lt wide
  have zeros : (List.replicate (m0 :: rest).length 0#n).length = (m0 :: rest).length :=
    List.length_replicate
  have negLength := subLimb_length zeros
  have negVal := subLimb_val positive zeros
  rw [List.length_replicate] at negLength negVal
  rw [wordsVal_replicate_zero, Nat.zero_add] at negVal
  refine ⟨wide, narrow, Nat.zero_lt_succ _, rfl, rfl, negLength, ?_, ?_⟩
  · have borrow :
        (subLimb (List.replicate (m0 :: rest).length 0#n) (m0 :: rest)).2.toNat ≤ 1 := by
      show (ofBool n _).toNat ≤ 1
      rw [ofBool_toNat positive]
      exact Bool.toNat_le _
    rcases Nat.le_one_iff_eq_zero_or_eq_one.mp borrow with zero | one
    · rw [zero] at negVal
      omega
    · rw [one, Nat.mul_one] at negVal
      exact negVal
  · intro low isLow
    rw [List.head?_cons, Option.some.injEq] at isLow
    rw [← isLow]
    exact computeMPrime_spec narrow (by rw [← wordsVal_parity positive m0 rest, odd])

theorem rawHalf_val (positive : 0 < n) {modulo : List (BitVec n)} (odd : wordsVal modulo % 2 = 1) :
    ((carryWords (shr1 modulo) true).1).length = modulo.length ∧
      2 * wordsVal (carryWords (shr1 modulo) true).1 = wordsVal modulo + 1 := by
  have low := wordsVal_lt modulo
  obtain ⟨length, carried⟩ := carryWords_spec (shr1 modulo) true
  rw [shr1_length positive] at length
  rw [shr1_val positive, shr1_length positive, Bool.toNat_true] at carried
  refine ⟨length, ?_⟩
  cases exceeds : (carryWords (shr1 modulo) true).2 with
  | false =>
    rw [exceeds, Bool.toNat_false] at carried
    omega
  | true =>
    rw [exceeds, Bool.toNat_true] at carried
    omega

/-- What the constructor checks. -/
structure Admits (width : Width) (L accumL : ℕ) (words : List (BitVec 64)) : Prop where
  some : 0 < words.length
  limbs : L = words.length * width.perU64
  room : 2 * L < accumL
  scratch : accumL + L < 64
  odd : wordsVal words % 2 = 1
  large : wordsVal words ≠ 1

/-- The field that the constructor computes from the limbs of the modulus. -/
def fieldOf (W accumL : ℕ) (m0 : BitVec width.bits) (rest : List (BitVec width.bits)) :
    FpGenericField width :=
  let L := (m0 :: rest).length
  let negModulo := (subLimb (List.replicate L 0) (m0 :: rest)).1
  { W, L, accumL, modulo := m0 :: rest, negModulo
    mPrime := computeMPrime m0
    r2 := computeR2 L negModulo
    r := computeR L negModulo
    accumScale :=
      (doubleModular negModulo)^[(accumL - 2 * L) * width.bits] (computeR2 L negModulo)
    rawHalf := (carryWords (shr1 (m0 :: rest)) true).1 }

variable {accumL : ℕ}

theorem fieldOf_valid {W : ℕ} {m0 : BitVec width.bits} {rest : List (BitVec width.bits)}
    (limbs : (m0 :: rest).length = W * width.perU64) (room : 2 * (m0 :: rest).length < accumL)
    (scratch : accumL + (m0 :: rest).length < 64) (odd : wordsVal (m0 :: rest) % 2 = 1)
    (large : wordsVal (m0 :: rest) ≠ 1) :
    Valid (fieldOf W accumL m0 rest) (wordsVal (m0 :: rest)) := by
  have positive : 0 < width.bits := Nat.zero_lt_of_lt width.wide
  have constants := constants_of_odd width.wide width.narrow odd
  have double := doubleModular_iterate constants (oneLimbs_residue constants (by omega))
  have square := (double (2 * width.bits * (m0 :: rest).length)).congr
    (d := (2 ^ width.bits) ^ (2 * (m0 :: rest).length)) (by
      rw [mul_one, ← pow_mul]
      congr 1
      ring)
  refine ⟨constants, limbs, room, scratch, odd, by omega, square, ?_, ?_, rawHalf_val positive odd⟩
  · refine (double (width.bits * (m0 :: rest).length)).congr ?_
    rw [mul_one, ← pow_mul]
    rfl
  · refine (doubleModular_iterate constants square _).congr ?_
    rw [mul_comm _ width.bits, pow_mul, ← pow_add]
    congr 1
    show accumL - 2 * (m0 :: rest).length + 2 * (m0 :: rest).length = accumL
    omega

variable {words : List (BitVec 64)} {F : FpGenericField width}

/-- **The constructor on what it admits.** -/
theorem newGeneric_returns {L : ℕ} (admits : Admits width L accumL words) :
    ∃ F, newGeneric width L accumL words = .ok F ∧ F.W = words.length ∧ F.L = L ∧
      Valid F (wordsVal words) := by
  have positive : 0 < width.bits := Nat.zero_lt_of_lt width.wide
  have some := admits.some
  have limbs := admits.limbs
  have room := admits.room
  have scratch := admits.scratch
  have mulFits : checkedMul words.length width.perU64 = .some L := by
    rw [checkedMul, if_pos (by omega), ← limbs]
  have roomFits : (checkedMul L 2).bind (checkedAdd · 1) = .some (L * 2 + 1) := by
    rw [checkedMul, if_pos (by omega), Option.bind_some, checkedAdd, if_pos (by omega)]
  have sizeFits : (checkedAdd accumL L).any (· < 64) = true := by
    rw [checkedAdd, if_pos (by omega)]
    simpa using scratch
  have length := words64ToLimbs_length width L words
  have value := words64ToLimbs_val width limbs
  have odd := admits.odd
  have large := admits.large
  obtain ⟨m0, rest, parts⟩ := List.exists_cons_of_ne_nil (List.ne_nil_of_length_pos
    (l := words64ToLimbs width L words)
    (by rw [length, limbs]; exact Nat.mul_pos some width.perU64_pos))
  rw [parts] at length value
  rw [← value] at odd large ⊢
  have oddLimb : m0 &&& 1 = 1 :=
    (and_one_eq_one positive m0).mpr (by rw [← wordsVal_parity positive m0 rest, odd])
  have notOne := (isOneSlice_iff positive (List.cons_ne_nil m0 rest)).not.mpr large
  refine ⟨fieldOf words.length accumL m0 rest, ?_, rfl, length,
    fieldOf_valid (length.trans limbs) (by omega) (by omega) odd large⟩
  subst length
  rw [newGeneric, ensure_of some, ok_bind, mulFits, expect_some, ok_bind, ensure_of rfl, ok_bind,
    roomFits, expect_some, ok_bind, ensure_of (by omega), ok_bind, ensure_of sizeFits, ok_bind,
    parts]
  dsimp only
  rw [getAt_of_lt (Nat.zero_lt_succ _), ok_bind]
  dsimp only [List.getElem_cons_zero]
  rw [ensure_of ⟨oddLimb, notOne⟩, ok_bind]
  show (propagateCarry (shr1 (m0 :: rest)) 0 true >>= _) = _
  rw [propagateCarry_eq true (Nat.zero_le _), ok_bind]
  rfl

section

variable {L : ℕ} (ran : newGeneric width L accumL words = .ok F)
include ran

theorem newGeneric_admits : Admits width L accumL words := by
  have positive : 0 < width.bits := Nat.zero_lt_of_lt width.wide
  simp only [newGeneric, bind_eq_ok, ensure_eq_ok, expect_eq_ok, exists_and_left,
    exists_const] at ran
  obtain ⟨some, limbs, isProduct, sameLimbs, room, isRoom, enough, scratch, m0, isLow,
    ⟨oddLimb, notOne⟩, _⟩ := ran
  subst sameLimbs
  rw [checkedMul, Option.ite_none_right_eq_some, Option.some.injEq] at isProduct
  obtain ⟨left, fits, sum⟩ := Option.bind_eq_some_iff.mp isRoom
  rw [checkedMul, Option.ite_none_right_eq_some, Option.some.injEq] at fits
  rw [checkedAdd, Option.ite_none_right_eq_some, Option.some.injEq] at sum
  have small : accumL + L < 64 := by
    by_cases inside : accumL + L < 2 ^ 64
    · rw [checkedAdd, if_pos inside] at scratch
      simpa using scratch
    · rw [checkedAdd, if_neg inside] at scratch
      simp at scratch
  have value := words64ToLimbs_val width isProduct.2.symm
  rw [getAt_eq_ok] at isLow
  obtain ⟨first, rest, parts⟩ := List.exists_cons_of_ne_nil
    (l := words64ToLimbs width L words) (by rintro empty; simp [empty] at isLow)
  rw [parts] at value isLow notOne
  rw [List.getElem?_cons_zero, Option.some.injEq] at isLow
  refine ⟨some, isProduct.2.symm, by omega, small, ?_, ?_⟩
  · rw [← value, wordsVal_parity positive, isLow]
    exact (and_one_eq_one positive m0).mp oddLimb
  · rw [← value]
    exact (isOneSlice_iff positive (List.cons_ne_nil first rest)).not.mp notOne

/-- **What the constructor returns is a valid field.** -/
theorem newGeneric_valid :
    F.W = words.length ∧ F.L = L ∧ Valid F (wordsVal words) := by
  obtain ⟨G, ran', valid⟩ := newGeneric_returns (newGeneric_admits ran)
  obtain rfl := Except.ok.inj (ran.symm.trans ran')
  exact valid

end

/-! ### The operations -/

/-- Limbs of the Montgomery form of `x`. -/
def FpGenericField.IsForm (F : FpGenericField width) (p : ℕ) (e : List (BitVec width.bits))
    (x : ZMod p) : Prop := IsResidue F.L p e (x * (2 ^ width.bits) ^ F.L)

section

variable {p : ℕ} [Fact p.Prime]

theorem Valid.two_ne_zero (valid : Valid F p) : (2 : ZMod p) ≠ 0 := by
  intro zero
  have divides : p ∣ 2 := (ZMod.natCast_eq_zero_iff 2 p).mp (by exact_mod_cast zero)
  have := Nat.le_of_dvd (by decide) divides
  have := valid.odd
  have := valid.large
  omega

theorem Valid.radix_ne_zero (valid : Valid F p) : ((2 : ZMod p) ^ width.bits) ^ F.L ≠ 0 :=
  pow_ne_zero _ (pow_ne_zero _ valid.two_ne_zero)

theorem zero_form (valid : Valid F p) : F.IsForm p F.zero 0 :=
  (zero_residue valid.constants.modulus_pos).congr (zero_mul _).symm

theorem one_form (valid : Valid F p) : F.IsForm p F.one 1 := valid.r.congr (one_mul _).symm

variable {a b : FpGenericField.Element width} {x y : ZMod p}

section

variable (valid : Valid F p)
include valid

theorem add_form (left : F.IsForm p a x) (right : F.IsForm p b y) :
    F.IsForm p (F.add a b) (x + y) :=
  (accumModular_residue valid.constants left right).congr (add_mul _ _ _).symm

theorem sub_form (left : F.IsForm p a x) (right : F.IsForm p b y) :
    F.IsForm p (F.sub a b) (x - y) :=
  (subModular_residue valid.constants left right).congr (sub_mul _ _ _).symm

theorem neg_form (form : F.IsForm p a x) : F.IsForm p (F.neg a) (-x) :=
  zero_sub x ▸ sub_form valid (zero_form valid) form

theorem mul_form (small : F.L ≤ 16) (left : F.IsForm p a x) (right : F.IsForm p b y) :
    ∃ c, F.mul a b = .ok c ∧ F.IsForm p c (x * y) := by
  obtain ⟨c, ran, residue⟩ := montgomeryMul_residue valid.constants small left.length right
  refine ⟨c, ran, residue _ valid.two_ne_zero.isUnit ?_⟩
  rw [left.value]
  ring

theorem toMontgomery_form (small : F.L ≤ 16) (length : a.length = F.L) :
    ∃ c, F.toMontgomery a = .ok c ∧ F.IsForm p c (wordsVal a) := by
  obtain ⟨c, ran, residue⟩ := montgomeryMul_residue valid.constants small length valid.r2
  refine ⟨c, ran, residue _ valid.two_ne_zero.isUnit ?_⟩
  rw [two_mul, pow_add]
  ring

theorem toStandard_residue (small : F.L ≤ 16) (form : F.IsForm p a x) :
    ∃ c, F.toStandard a = .ok c ∧ IsResidue F.L p c x := by
  obtain ⟨c, ran, residue⟩ := montgomeryMul_residue valid.constants small form.length
    (oneLimbs_residue valid.constants valid.large)
  refine ⟨c, ran, residue _ valid.two_ne_zero.isUnit ?_⟩
  rw [form.value, mul_one]

theorem ofScalar_form (small : F.L ≤ 16) (scalar : BitVec 64) :
    ∃ c, F.ofScalar scalar = .ok c ∧ F.IsForm p c (scalar.toNat : ZMod p) := by
  have positive := valid.constants.some
  have enough : width.perU64 ≤ F.L := by
    rw [valid.limbs] at positive ⊢
    exact Nat.le_mul_of_pos_left _ (Nat.pos_of_mul_pos_right positive)
  have limbsLength := u64ToLimbs_length width scalar
  have length : ((u64ToLimbs width scalar ++ List.replicate F.L 0).take F.L).length = F.L := by
    rw [List.length_take, List.length_append, List.length_replicate]
    omega
  have value : wordsVal ((u64ToLimbs width scalar ++ List.replicate F.L 0).take F.L) =
      scalar.toNat := by
    have more : (2 ^ width.bits) ^ width.perU64 ≤ (2 ^ width.bits) ^ F.L :=
      Nat.pow_le_pow_right (by positivity) enough
    have low := scalar.isLt
    rw [← pow_mul, width.bits_mul_perU64] at more
    rw [wordsVal_take _ (by rw [List.length_append, List.length_replicate]; omega),
      wordsVal_append, u64ToLimbs_val, BitVec.ofNat_eq_ofNat, wordsVal_replicate_zero,
      Nat.mul_zero, Nat.add_zero, Nat.mod_eq_of_lt (by omega)]
  obtain ⟨c, ran, form⟩ := toMontgomery_form valid small length
  rw [value] at form
  exact ⟨c, ran, form⟩

end

omit [Fact p.Prime] in
theorem getAt_zero (valid : Valid F p) (length : a.length = F.L) :
    ∃ low, getAt (ε := String) a 0 = .ok low ∧ (low &&& 1 = 0 ↔ wordsVal a % 2 = 0) := by
  have positive : 0 < width.bits := Nat.zero_lt_of_lt width.wide
  have some := valid.constants.some
  cases a with
  | nil =>
    rw [List.length_nil] at length
    omega
  | cons low rest =>
    refine ⟨low, getAt_of_lt (Nat.zero_lt_succ _), ?_⟩
    rw [and_one_eq_zero positive, wordsVal_parity positive]

theorem byhalf_residue (valid : Valid F p) {c : ZMod p} (residue : IsResidue F.L p a c) :
    ∃ h, F.byhalf a = .ok h ∧ IsResidue F.L p h (c / 2) := by
  have positive : 0 < width.bits := Nat.zero_lt_of_lt width.wide
  have two := valid.two_ne_zero
  have length := (shr1_length positive a).trans residue.length
  have halved := shr1_val positive a
  have canonical := residue.canonical
  obtain ⟨low, isLow, parity⟩ := getAt_zero valid residue.length
  rw [FpGenericField.byhalf, isLow, ok_bind, pure_eq_ok]
  by_cases even : low &&& 1 = 0
  · refine ⟨shr1 a, by rw [if_neg (not_not_intro even)], length, by omega, ?_⟩
    have double : wordsVal (shr1 a) * 2 = wordsVal a := by
      have := parity.mp even
      omega
    rw [eq_div_iff two, ← residue.value, ← double, Nat.cast_mul, Nat.cast_two]
  · obtain ⟨halfLength, half⟩ := valid.rawHalf
    have odd := parity.not.mp even
    have large := valid.large
    have whole : IsResidue F.L p (shr1 a) (wordsVal (shr1 a)) := ⟨length, by omega, rfl⟩
    have rest : IsResidue F.L p F.rawHalf (wordsVal F.rawHalf) := ⟨halfLength, by omega, rfl⟩
    refine ⟨F.add (shr1 a) F.rawHalf, by rw [if_pos even],
      (accumModular_residue valid.constants whole rest).congr ?_⟩
    have double : (wordsVal (shr1 a) + wordsVal F.rawHalf) * 2 = wordsVal a + p := by omega
    have cast := congrArg (Nat.cast (R := ZMod p)) double
    push_cast [ZMod.natCast_self] at cast
    rw [eq_div_iff two, cast, residue.value, add_zero]

/-! ### Inversion -/

/-- What the loop keeps, for the inverse of `x`: the numbers have no common divisor, and each
comes with its quotient by `x`. -/
structure Inverting (F : FpGenericField width) (p : ℕ) [Fact p.Prime] (x : ZMod p)
    (s : FpGenericField.InvertState width) : Prop where
  aLength : s.a.length = F.L
  bLength : s.b.length = F.L
  coprime : Nat.Coprime (wordsVal s.a) (wordsVal s.b)
  odd : wordsVal s.b % 2 = 1
  u : F.IsForm p s.u ((wordsVal s.a : ZMod p) / x)
  v : F.IsForm p s.v ((wordsVal s.b : ZMod p) / x)

theorem byhalf_quotient (valid : Valid F p) {k : ℕ} (form : F.IsForm p a ((2 * k : ℕ) / x)) :
    ∃ h, F.byhalf a = .ok h ∧ F.IsForm p h (k / x) := by
  have two := valid.two_ne_zero
  obtain ⟨h, ran, residue⟩ := byhalf_residue valid form
  refine ⟨h, ran, residue.congr ?_⟩
  push_cast
  field_simp

variable {s : FpGenericField.InvertState width}

theorem Inverting.swap (inverting : Inverting F p x s) (odd : wordsVal s.a % 2 = 1) :
    ∃ a b u v, (if lt s.a s.b then { a := s.b, b := s.a, u := s.v, v := s.u } else s) =
        FpGenericField.InvertState.mk a b u v ∧ Inverting F p x ⟨a, b, u, v⟩ ∧
      wordsVal b ≤ wordsVal a ∧ wordsVal a % 2 = 1 ∧
      wordsVal a * wordsVal b = wordsVal s.a * wordsVal s.b := by
  have sizes := inverting.aLength.trans inverting.bLength.symm
  by_cases less : lt s.a s.b = true
  · rw [if_pos less]
    refine ⟨_, _, _, _, rfl, ⟨inverting.bLength, inverting.aLength, inverting.coprime.symm, odd,
      inverting.v, inverting.u⟩, ?_, inverting.odd, Nat.mul_comm _ _⟩
    exact Nat.le_of_lt ((lt_spec sizes).mp less)
  · rw [if_neg less]
    refine ⟨s.a, s.b, s.u, s.v, rfl, inverting, ?_, odd, rfl⟩
    exact Nat.le_of_not_lt ((lt_spec sizes).not.mp less)

/-- **A round halves the product of the numbers.** -/
theorem invertStep_returns (valid : Valid F p) (inverting : Inverting F p x s) :
    ∃ s', F.invertStep s = .ok s' ∧ Inverting F p x s' ∧
      2 * (wordsVal s'.a * wordsVal s'.b) ≤ wordsVal s.a * wordsVal s.b := by
  have positive : 0 < width.bits := Nat.zero_lt_of_lt width.wide
  obtain ⟨low, isLow, parity⟩ := getAt_zero valid inverting.aLength
  rw [FpGenericField.invertStep, isLow, ok_bind]
  by_cases even : low &&& 1 = 0
  · have halves : wordsVal s.a = 2 * (wordsVal s.a / 2) := by
      have := parity.mp even
      omega
    have form := inverting.u
    rw [halves] at form
    obtain ⟨h, ran, half⟩ := byhalf_quotient valid form
    have value := shr1_val positive s.a
    rw [if_pos even, ran, ok_bind, pure_eq_ok]
    refine ⟨_, rfl, ⟨(shr1_length positive s.a).trans inverting.aLength, inverting.bLength, ?_,
      inverting.odd, ?_, inverting.v⟩, ?_⟩
    · rw [value]
      exact inverting.coprime.coprime_dvd_left (Dvd.intro_left 2 halves.symm)
    · rw [value]
      exact half
    · show 2 * (wordsVal (shr1 s.a) * wordsVal s.b) ≤ _
      rw [value, ← Nat.mul_assoc, ← halves]
  · rw [if_neg even]
    obtain ⟨a, b, u, v, swapped, kept, ordered, odd, same⟩ := inverting.swap (by
      have := parity.not.mp even
      omega)
    rw [swapped, ← same]
    have oddB : wordsVal b % 2 = 1 := kept.odd
    have sizes : a.length = b.length := kept.aLength.trans kept.bLength.symm
    have difference : wordsVal (subLimb a b).1 = wordsVal a - wordsVal b := by
      have value := subLimb_val positive sizes
      have small := wordsVal_lt (subLimb a b).1
      have low := wordsVal_lt a
      rw [subLimb_length sizes] at small
      rcases Nat.eq_zero_or_pos (subLimb a b).2.toNat with zero | some
      · rw [zero] at value
        omega
      · have borrowed := Nat.mul_le_mul_left ((2 ^ width.bits) ^ a.length) some
        omega
    have value := shr1_val positive (subLimb a b).1
    have halves : wordsVal a - wordsVal b = 2 * ((wordsVal a - wordsVal b) / 2) := by omega
    rw [difference] at value
    have form : F.IsForm p (F.sub u v)
        ((2 * ((wordsVal a - wordsVal b) / 2) : ℕ) / x) := by
      rw [← halves, Nat.cast_sub ordered, sub_div]
      exact sub_form valid kept.u kept.v
    obtain ⟨h, ran, half⟩ := byhalf_quotient valid form
    dsimp only
    rw [ran, ok_bind, pure_eq_ok]
    refine ⟨_, rfl, ⟨?_, kept.bLength, ?_, oddB, ?_, kept.v⟩, ?_⟩
    · exact (shr1_length positive _).trans ((subLimb_length sizes).trans kept.aLength)
    · rw [value]
      have coprime : Nat.Coprime (wordsVal a - wordsVal b) (wordsVal b) :=
        (Nat.coprime_sub_self_left ordered).mpr kept.coprime
      exact coprime.coprime_dvd_left (Dvd.intro_left 2 halves.symm)
    · rw [value]
      exact half
    · show 2 * (wordsVal (shr1 (subLimb a b).1) * wordsVal b) ≤ _
      rw [value, ← Nat.mul_assoc, ← halves]
      exact Nat.mul_le_mul_right _ (Nat.sub_le _ _)

/-- **The loop ends**, when the product of the numbers is below `2 ^ k`. -/
theorem invertLoop_returns (valid : Valid F p) {k : ℕ} (inverting : Inverting F p x s)
    (bound : wordsVal s.a * wordsVal s.b < 2 ^ k) :
    ∃ v, F.invertLoop k s = .ok v ∧ F.IsForm p v (1 / x) := by
  have stopped : ∀ {s : FpGenericField.InvertState width}, Inverting F p x s →
      (s.a = F.zero ↔ wordsVal s.a = 0) := by
    intro s inverting
    rw [wordsVal_eq_zero, inverting.aLength]
    exact Iff.rfl
  have done : ∀ {s : FpGenericField.InvertState width}, Inverting F p x s → s.a = F.zero →
      F.IsForm p s.v (1 / x) := by
    intro s inverting zero
    have one := inverting.coprime
    rw [(stopped inverting).mp zero, Nat.coprime_zero_left] at one
    have form := inverting.v
    rwa [one, Nat.cast_one] at form
  induction k generalizing s with
  | zero =>
    have zero : wordsVal s.a = 0 := by
      have odd := inverting.odd
      rw [pow_zero, Nat.lt_one_iff, Nat.mul_eq_zero] at bound
      omega
    have isZero := (stopped inverting).mpr zero
    exact ⟨s.v, by rw [FpGenericField.invertLoop, if_neg (not_not_intro isZero), pure_eq_ok],
      done inverting isZero⟩
  | succ fuel ih =>
    rw [FpGenericField.invertLoop]
    by_cases isZero : s.a = F.zero
    · exact ⟨s.v, by rw [if_neg (not_not_intro isZero), pure_eq_ok], done inverting isZero⟩
    · obtain ⟨s', ran, inverting', halved⟩ := invertStep_returns valid inverting
      obtain ⟨v, ran', form⟩ := ih inverting' (by rw [pow_succ'] at bound; omega)
      exact ⟨v, by rw [if_pos isZero, ran, ok_bind, ran'], form⟩

omit [Fact p.Prime] in
theorem isZero_iff (form : F.IsForm p a x) : F.isZero a = true ↔ wordsVal a = 0 := by
  rw [FpGenericField.isZero, beq_iff_eq, wordsVal_eq_zero, form.length]
  exact Iff.rfl

theorem invert_form (valid : Valid F p) (small : F.L ≤ 16) (form : F.IsForm p a x)
    (nonzero : x ≠ 0) : ∃ c, F.invert a = .ok c ∧ F.IsForm p c x⁻¹ := by
  obtain ⟨standard, ran, residue⟩ := toStandard_residue valid small form
  have guard : ¬ F.isZero a = true := by
    rw [isZero_iff form]
    intro zero
    have value := form.value
    rw [zero, Nat.cast_zero] at value
    rcases mul_eq_zero.mp value.symm with isZero | isZero
    · exact nonzero isZero
    · exact valid.radix_ne_zero isZero
  have modulus := valid.constants.value
  have start : Inverting F p x ⟨standard, F.modulo, F.one, F.zero⟩ := by
    refine ⟨residue.length, valid.constants.length, ?_, ?_, ?_, ?_⟩
    · rw [modulus]
      refine Nat.Coprime.symm (((Fact.out : p.Prime).coprime_iff_not_dvd).mpr fun divides => ?_)
      apply nonzero
      rw [← residue.value]
      exact (ZMod.natCast_eq_zero_iff _ _).mpr divides
    · rw [modulus]
      exact valid.odd
    · rw [residue.value, div_self nonzero]
      exact one_form valid
    · rw [modulus, ZMod.natCast_self, zero_div]
      exact zero_form valid
  obtain ⟨c, ran', inverse⟩ := invertLoop_returns (k := 2 * width.bits * F.L) valid start (by
    have left := wordsVal_lt standard
    have right := wordsVal_lt F.modulo
    rw [residue.length] at left
    rw [valid.constants.length] at right
    have product := Nat.mul_lt_mul'' left right
    rwa [← pow_mul, ← pow_add, ← two_mul, ← Nat.mul_assoc] at product)
  refine ⟨c, ?_, one_div x ▸ inverse⟩
  rw [FpGenericField.invert, ensure_of guard, ok_bind, ran, ok_bind, ran']

end

end Longfellow.FpGeneric
