/-
**Inversion** (`runtime/algebra/src/gf2_128.rs`, and all inversions together).

In the field of 2¹²⁸ elements the loop divides by `X` instead of 2. The second polynomial, of degree
128 at first, always has the constant term one, and only what stands above it is kept.

* `inversions_iff` — **all inversions end with the inverse if and only if the limbs of the prime field
  fit the buffer of its product**.
-/

import Longfellow.Algebra.Fp24Ext6
import Longfellow.Algebra.FpRefinement
import Longfellow.Gadget.Generator

namespace Longfellow

namespace Gf2128

open Lib Polynomial

variable {ε : Type} {a : Gf2128}

/-- The inverse of `X`. -/
def XINV : Gf2128 := 0x80000000000000000000000000000043

/-- The variables of the inversion loop; `bm1ox` is the second polynomial without its constant term,
over `X`. -/
structure InvertState where
  aCurr : Gf2128
  bm1ox : Gf2128
  u : Gf2128
  v : Gf2128

/-- One round of the loop, over the multiplication of the processor. -/
def invertStep (archMul : Gf2128 → Gf2128 → Gf2128) (s : InvertState) : InvertState :=
  let atmp := s.aCurr >>> 1
  if s.aCurr &&& 1#128 = 0#128 then { s with aCurr := atmp, u := archMul XINV s.u }
  else
    let t : InvertState := if atmp < s.bm1ox then ⟨s.bm1ox, atmp, s.v, s.u⟩
      else ⟨atmp, s.bm1ox, s.u, s.v⟩
    { aCurr := t.aCurr ^^^ t.bm1ox, bm1ox := t.bm1ox, u := archMul XINV (t.u ^^^ t.v), v := t.v }

/-- The loop, for at most `fuel` rounds. -/
def invertLoop (archMul : Gf2128 → Gf2128 → Gf2128) : ℕ → InvertState → Exec ε Gf2128
  | 0, s => if s.aCurr ≠ 0#128 then abort "out of fuel" else pure s.v
  | fuel + 1, s =>
    if s.aCurr ≠ 0#128 then invertLoop archMul fuel (invertStep archMul s) else pure s.v

def invert (archMul : Gf2128 → Gf2128 → Gf2128) (e : Gf2128) : Exec ε Gf2128 := do
  ensure (e ≠ 0#128) "cannot invert zero"
  invertLoop archMul 256 { aCurr := e, bm1ox := XINV, u := 1#128, v := 0#128 }

/-! ### The polynomials of the loop -/

/-- The polynomial with the constant term one. -/
noncomputable def above (b : Gf2128) : (ZMod 2)[X] := X * toPoly b + 1

theorem above_eq (b : Gf2128) : above b = X * toPoly b + 1 := by unfold above; rfl

theorem toPoly_XINV : toPoly XINV = X ^ 127 + X ^ 6 + X + 1 := by
  have bits : XINV = BitVec.twoPow 128 127 ^^^ BitVec.twoPow 128 6 ^^^ BitVec.twoPow 128 1 ^^^
      BitVec.twoPow 128 0 := by decide
  rw [bits, toPoly_xor, toPoly_xor, toPoly_xor, toPoly_twoPow (by decide),
    toPoly_twoPow (by decide), toPoly_twoPow (by decide), toPoly_twoPow (by decide), pow_one,
    pow_zero]

theorem above_XINV : above XINV = modulus := by
  rw [above_eq, toPoly_XINV, modulus_eq, tail]
  ring

theorem add_self (p : (ZMod 2)[X]) : p + p = 0 := CharTwo.add_self_eq_zero p

theorem classOf_above_XINV : classOf (above XINV) = 0 := by
  rw [above_XINV]
  exact AdjoinRoot.mk_self

theorem value_XINV_mul (p : (ZMod 2)[X]) : value XINV * classOf (X * p) = classOf p := by
  have zero := classOf_above_XINV
  have two := two_eq_zero
  rw [above_eq, classOf_add, classOf_mul, classOf_one] at zero
  rw [classOf_mul, value]
  linear_combination classOf p * zero - classOf p * two

theorem toPoly_odd (odd : a.getLsbD 0 = true) : toPoly a = above (a >>> 1) := by
  rw [toPoly_shiftRight_one, odd, bitVal_true, C_1, above_eq, add_comm]

theorem toPoly_even (even : a.getLsbD 0 = false) :
    toPoly a = X * toPoly (a >>> 1) := by
  rw [toPoly_shiftRight_one, even, bitVal_false, C_0, zero_add]

theorem above_add (a b : Gf2128) : above a + above b = X * toPoly (a ^^^ b) := by
  rw [above_eq, above_eq, toPoly_xor]
  linear_combination add_self 1

/-! ### What the loop keeps -/

/-- For the inverse of `x`: the polynomials have no common divisor, and each comes with its quotient
by `x`. -/
structure Inverting (x : AdjoinRoot modulus) (s : InvertState) : Prop where
  coprime : IsCoprime (toPoly s.aCurr) (above s.bm1ox)
  u : value s.u * x = value s.aCurr
  v : value s.v * x = classOf (above s.bm1ox)

/-- A multiplication of the field. -/
def Multiplies (archMul : Gf2128 → Gf2128 → Gf2128) : Prop :=
  ∀ x y, value (archMul x y) = value x * value y

variable {archMul : Gf2128 → Gf2128 → Gf2128} {x : AdjoinRoot modulus} {s : InvertState}

theorem half_spec (multiplies : Multiplies archMul) {u : Gf2128} {q : (ZMod 2)[X]}
    (coprime : IsCoprime (X * toPoly a) q) (cofactor : value u * x = classOf (X * toPoly a)) :
    IsCoprime (toPoly a) q ∧ value (archMul XINV u) * x = value a := by
  refine ⟨coprime.of_mul_left_right, ?_⟩
  rw [multiplies, mul_assoc, cofactor, value_XINV_mul]
  rfl

/-- **A round.** The bounds on the two polynomials change places with them. -/
theorem Inverting.step (multiplies : Multiplies archMul) (inverting : Inverting x s) {i j : ℕ}
    (some : s.aCurr ≠ 0#128) (left : s.aCurr.toNat < 2 ^ i) (right : s.bm1ox.toNat < 2 ^ j) :
    Inverting x (invertStep archMul s) ∧ ∃ i' j', i' + j' + 1 = i + j ∧
      (invertStep archMul s).aCurr.toNat < 2 ^ i' ∧
      (invertStep archMul s).bm1ox.toNat < 2 ^ j' := by
  obtain ⟨i, rfl⟩ : ∃ k, i = k + 1 := by
    refine ⟨i - 1, (Nat.sub_add_cancel (Nat.pos_of_ne_zero fun zero => some ?_)).symm⟩
    rw [zero, pow_zero, Nat.lt_one_iff] at left
    exact BitVec.eq_of_toNat_eq left
  have half : (s.aCurr >>> 1).toNat < 2 ^ i := by
    rw [BitVec.toNat_ushiftRight, Nat.shiftRight_one]
    rw [pow_succ'] at left
    omega
  have bit : s.aCurr &&& 1#128 = 0#128 ↔ s.aCurr.getLsbD 0 = false := by
    rw [← Bool.not_eq_true, ← and_one_ne_zero _ (by decide), not_not]
  rw [invertStep]
  by_cases even : s.aCurr &&& 1#128 = 0#128
  · have shape := toPoly_even (bit.mp even)
    have coprime := inverting.coprime
    have cofactor := inverting.u
    rw [shape] at coprime
    rw [value, value, shape] at cofactor
    obtain ⟨coprime, quotient⟩ := half_spec multiplies coprime cofactor
    rw [if_pos even]
    exact ⟨⟨coprime, quotient, inverting.v⟩, i, j, by omega, half, right⟩
  · have shape := toPoly_odd (Bool.eq_true_of_not_eq_false (mt bit.mpr even))
    have coprime := inverting.coprime
    have cofactor := inverting.u
    rw [shape] at coprime
    rw [value, value, shape] at cofactor
    rw [if_neg even]
    -- what is left of either order of the polynomials
    have difference : ∀ {a b u v : Gf2128}, IsCoprime (above a) (above b) →
        value u * x = classOf (above a) → value v * x = classOf (above b) →
        Inverting x ⟨a ^^^ b, b, archMul XINV (u ^^^ v), v⟩ := by
      intro a b u v coprime first second
      have sum : value (u ^^^ v) * x = classOf (X * toPoly (a ^^^ b)) := by
        rw [value_xor, add_mul, first, second, ← above_add, classOf_add]
      have shifted := coprime.add_mul_right_left 1
      rw [one_mul, above_add] at shifted
      obtain ⟨coprime', quotient⟩ := half_spec multiplies shifted sum
      exact ⟨coprime', quotient, second⟩
    by_cases less : s.aCurr >>> 1 < s.bm1ox
    · rw [if_pos less]
      have below : (s.aCurr >>> 1).toNat < 2 ^ j := (BitVec.lt_def.mp less).trans right
      refine ⟨difference coprime.symm inverting.v cofactor, j, i, by omega, ?_, half⟩
      exact Nat.xor_lt_two_pow right below
    · rw [if_neg less]
      have below : s.bm1ox.toNat < 2 ^ i :=
        lt_of_le_of_lt (not_lt.mp (mt BitVec.lt_def.mpr less)) half
      refine ⟨difference coprime cofactor inverting.v, i, j, by omega, ?_, right⟩
      exact Nat.xor_lt_two_pow half below

/-- **The end.** -/
theorem Inverting.done (inverting : Inverting x s) (zero : s.aCurr = 0#128) : value s.v * x = 1 := by
  have unit := inverting.coprime
  rw [zero, toPoly_zero, isCoprime_zero_left] at unit
  obtain ⟨r, -, constant⟩ := Polynomial.isUnit_iff.mp unit
  have term := congrArg (fun p => p.coeff 0) constant
  rw [inverting.v]
  simp only [above_eq, coeff_C_zero, coeff_add, coeff_X_mul_zero, coeff_one_zero, zero_add] at term
  rw [← constant, term, C_1, classOf_one]

/-- **The loop ends**, when the numbers of the polynomials have fewer bits than it has rounds. -/
theorem invertLoop_returns (multiplies : Multiplies archMul) {fuel : ℕ} (inverting : Inverting x s)
    {i j : ℕ} (left : s.aCurr.toNat < 2 ^ i) (right : s.bm1ox.toNat < 2 ^ j) (enough : i + j ≤ fuel) :
    ∃ c, invertLoop archMul fuel s = (.ok c : Exec ε Gf2128) ∧ value c * x = 1 := by
  induction fuel generalizing s i j with
  | zero =>
    obtain rfl : i = 0 := by omega
    have zero : s.aCurr = 0#128 := by
      rw [pow_zero, Nat.lt_one_iff] at left
      exact BitVec.eq_of_toNat_eq left
    refine ⟨s.v, ?_, inverting.done zero⟩
    rw [invertLoop, if_neg (not_not_intro zero), pure_eq_ok]
  | succ fuel ih =>
    rw [invertLoop]
    by_cases zero : s.aCurr = 0#128
    · exact ⟨s.v, by rw [if_neg (not_not_intro zero), pure_eq_ok], inverting.done zero⟩
    · obtain ⟨kept, i', j', fewer, left', right'⟩ := inverting.step multiplies zero left right
      rw [if_pos zero]
      exact ih kept left' right' (by omega)

theorem coprime_modulus {e : Gf2128} (nonzero : e ≠ 0#128) : IsCoprime (toPoly e) modulus := by
  have unit : IsUnit (⟨e⟩ : Gadget.Gf2128Elt) :=
    Gadget.Gf2128Elt.isUnit_of_ne_zero fun zero => nonzero (congrArg Gadget.Gf2128Elt.bits zero)
  obtain ⟨c, product⟩ := unit.exists_left_inv
  have image := congrArg Gadget.Gf2128Elt.image product
  rw [Gadget.Gf2128Elt.image_mul, Gadget.Gf2128Elt.image_one] at image
  have same : classOf (toPoly c.bits * toPoly e) = classOf 1 := by
    rw [classOf_mul, classOf_one]
    exact image
  obtain ⟨q, multiple⟩ := AdjoinRoot.mk_eq_mk.mp same
  exact ⟨toPoly c.bits, -q, by linear_combination multiple⟩

/-- **The inverse of an element.** -/
theorem invert_returns (multiplies : Multiplies archMul) {e : Gf2128} (nonzero : e ≠ 0#128) :
    ∃ c, invert archMul e = (.ok c : Exec ε Gf2128) ∧ archMul c e = 1#128 := by
  have one : value (1#128) = 1 := by rw [value, toPoly_one (by decide), classOf_one]
  have start : Inverting (value e) ⟨e, XINV, 1#128, 0#128⟩ := by
    refine ⟨?_, ?_, ?_⟩
    · rw [above_XINV]
      exact coprime_modulus nonzero
    · rw [one, one_mul]
    · rw [value_zero, zero_mul, classOf_above_XINV]
  have enough : 128 + 128 ≤ 256 := by decide
  obtain ⟨c, ran, inverse⟩ := invertLoop_returns (ε := ε) multiplies start e.isLt XINV.isLt enough
  refine ⟨c, by rw [invert, ensure_of nonzero, ok_bind, ran], value_injective ?_⟩
  rw [multiplies, inverse, one]

theorem multiplies_portable : Multiplies Generic.mul := portable_mul_spec

theorem multiplies_x86 {clmul : BitVec 64 → BitVec 64 → BitVec 128} (intrinsic : IsClmul clmul) :
    Multiplies (X86.mul clmul) := x86_mul_spec intrinsic

end Gf2128

/-! ### All inversions -/

namespace FpGeneric

open Lib Limb

variable {width : Width} {p : ℕ} {F : FpGenericField width}

/-- The inversion of a prime field returns the canonical inverse of every element but zero. -/
def FpGenericField.Inverts (F : FpGenericField width) (p : ℕ) [Fact p.Prime] : Prop :=
  ∀ a, F.IsCanonical p a → F.repr p a ≠ 0 → F.Returns p (F.invert a) (F.repr p a)⁻¹

theorem inverts_of_small [Fact p.Prime] (valid : Valid F p) (small : F.L ≤ 16) : F.Inverts p :=
  (refines_of_small valid small).invert

theorem toStandard_aborts (large : 16 < F.L) (a : FpGenericField.Element width) :
    F.toStandard a = abort "montgomery_mul: limb count exceeds static buffer" := by
  rw [FpGenericField.toStandard, montgomeryMul, ensure, if_neg (by omega)]
  rfl

theorem not_inverts_of_large [Fact p.Prime] (valid : Valid F p) (large : 16 < F.L) :
    ¬ F.Inverts p := by
  intro inverts
  obtain ⟨canonical, one⟩ := (isForm_iff valid).mp (one_form valid)
  obtain ⟨c, ran, -⟩ := inverts F.one canonical (by rw [one]; exact one_ne_zero)
  simp only [FpGenericField.invert, bind_eq_ok] at ran
  obtain ⟨-, -, standard, isStandard, -⟩ := ran
  rw [toStandard_aborts large] at isStandard
  exact abort_ne_ok _ _ isStandard

end FpGeneric

open Lib FpGeneric Gf2128

/-- **All inversions end with the canonical inverse if and only if the limbs of the prime field fit
the buffer of its product**; those of the other fields always do. -/
theorem inversions_iff {ε : Type} {width : Limb.Width} {L accumL : ℕ} {words : List (BitVec 64)}
    {F : FpGenericField width} [Fact (wordsVal words).Prime]
    (admitted : newGeneric width L accumL words = .ok F) :
    (F.Inverts (wordsVal words) ∧
      (∀ a, a ≠ 0 → a < Fp24.Q → ∃ c, Fp24.invertBase a = (.ok c : Exec ε ℕ) ∧ c < Fp24.Q ∧
        Fp24.mulBase c a = 1) ∧
      (∀ e : Gf2128, e ≠ 0#128 → ∃ c, Gf2128.invert Generic.mul e = (.ok c : Exec ε Gf2128) ∧
        Generic.mul c e = 1#128) ∧
      (∀ clmul, IsClmul clmul → ∀ e : Gf2128, e ≠ 0#128 →
        ∃ c, Gf2128.invert (X86.mul clmul) e = (.ok c : Exec ε Gf2128) ∧
          X86.mul clmul c e = 1#128) ∧
      ∀ a, Fp24Ext6.Canonical a → a ≠ 0 →
        ∃ c, Fp24Ext6.invertExtension a = (.ok c : Exec ε Fp24Ext6.Element) ∧
          Fp24Ext6.Canonical c ∧ Fp24Ext6.mulExtension a c = Fp24Ext6.one) ↔
      L ≤ 16 := by
  obtain ⟨_, size, valid⟩ := newGeneric_valid admitted
  rw [← size]
  refine ⟨fun ⟨prime, _⟩ => ?_, fun small => ⟨inverts_of_small valid small, ?_, ?_, ?_, ?_⟩⟩
  · by_contra large
    exact not_inverts_of_large valid (by omega) prime
  · exact fun a nonzero below => Fp24.invertBase_mul nonzero below
  · exact fun e nonzero => Gf2128.invert_returns multiplies_portable nonzero
  · exact fun clmul intrinsic e nonzero => Gf2128.invert_returns (multiplies_x86 intrinsic) nonzero
  · exact fun a canonical nonzero => Fp24Ext6.invertExtension_returns canonical nonzero

/-- All inversions, with the integers modulo 7 as the prime field. -/
theorem inversions_seven : ∃ _ : Fact (wordsVal [7#64]).Prime, ∃ F : FpGenericField .limb64,
    newGeneric .limb64 1 3 [7#64] = .ok F ∧ F.Inverts (wordsVal [7#64]) ∧
      (∀ a, a ≠ 0 → a < Fp24.Q → ∃ c, Fp24.invertBase a = (.ok c : Exec String ℕ) ∧ c < Fp24.Q ∧
        Fp24.mulBase c a = 1) ∧
      (∀ e : Gf2128, e ≠ 0#128 → ∃ c, Gf2128.invert Generic.mul e = (.ok c : Exec String Gf2128) ∧
        Generic.mul c e = 1#128) ∧
      (∀ clmul, IsClmul clmul → ∀ e : Gf2128, e ≠ 0#128 →
        ∃ c, Gf2128.invert (X86.mul clmul) e = (.ok c : Exec String Gf2128) ∧
          X86.mul clmul c e = 1#128) ∧
      ∀ a, Fp24Ext6.Canonical a → a ≠ 0 →
        ∃ c, Fp24Ext6.invertExtension a = (.ok c : Exec String Fp24Ext6.Element) ∧
          Fp24Ext6.Canonical c ∧ Fp24Ext6.mulExtension a c = Fp24Ext6.one := by
  obtain ⟨prime, F, admitted⟩ := exists_seven
  exact ⟨prime, F, admitted, (inversions_iff admitted).mpr (by decide)⟩

/-- The integers modulo 3 in 17 words are admitted, and not even one is inverted. -/
theorem newGeneric_three_no_inverse : ∃ _ : Fact (Nat.Prime 3), ∃ F,
    newGeneric .limb64 17 35 (3#64 :: List.replicate 16 0#64) = .ok F ∧
      wordsVal (3#64 :: List.replicate 16 0#64) = 3 ∧ ¬ F.Inverts 3 := by
  have prime : Fact (Nat.Prime 3) := ⟨Nat.prime_three⟩
  obtain ⟨F, admitted, value, size, valid⟩ := exists_three
  exact ⟨prime, F, admitted, value, not_inverts_of_large valid (by omega)⟩

end Longfellow
