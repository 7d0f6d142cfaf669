/-
**Sums of points** (`core/algebra/src/ec.rs`, `circuits/ec/src/circuit.rs`).

On a curve of odd order no point has order two. The formulas divide by nothing, and their common
factor is a product of ordinates and of differences: it is never zero.

* `add_chord`, `add_tangent`, `add_opposite` — **what the formulas compute, with the factor**;
* `formulas_complete` — **sums, doubles and multiples of all points, in code and in circuit.**
-/

import Longfellow.Ec.Concrete
import Longfellow.Gadget.Logic
import Mathlib.AlgebraicGeometry.EllipticCurve.Affine.Point

set_option linter.unusedSectionVars false

namespace Longfellow.Ec

open Lib Gadget WeierstrassCurve Affine

section Formulas

variable {K : Type} [CommRing K] (curve : Curve K)

/-- The same point with another denominator. -/
def scale (w : K) (p : Pt3 K) : Pt3 K := (w * p.1, w * p.2.1, w * p.2.2)

theorem add_scale (v w : K) (p q : Pt3 K) :
    add curve (scale v p) (scale w q) = scale ((v * w) ^ 2) (add curve p q) := by
  simp only [add, scale]
  refine Prod.ext ?_ (Prod.ext ?_ ?_)
  all_goals ring

theorem double_scale (w : K) (p : Pt3 K) :
    double curve (scale w p) = scale (w ^ 4) (double curve p) := by
  simp only [double, scale]
  refine Prod.ext ?_ (Prod.ext ?_ ?_)
  all_goals ring

theorem add_symm (p q : Pt3 K) : add curve p q = add curve q p := by
  simp only [add]
  refine Prod.ext ?_ (Prod.ext ?_ ?_)
  all_goals ring

theorem add_zero_zero : add curve zero zero = scale 1 zero := by simp [add, zero, scale]

theorem add_zero_affine (x y : K) : add curve zero (x, y, 1) = scale y (x, y, 1) := by
  simp only [add, zero, scale]
  refine Prod.ext ?_ (Prod.ext ?_ ?_)
  all_goals ring

theorem double_eq_add {x y : K} (on : y ^ 2 = x ^ 3 + curve.a * x + curve.b) :
    double curve (x, y, 1) = add curve (x, y, 1) (x, y, 1) := by
  simp only [double, add]
  refine Prod.ext (by ring) (Prod.ext (by ring) ?_)
  linear_combination 6 * y * on

end Formulas

variable {K : Type} [Field K] {curve : Curve K}

section Identities

/-- The third point of a line with slope `l`, mirrored. -/
def third (l x1 y1 x2 : K) : Pt3 K := (l ^ 2 - x1 - x2, l * (x1 - (l ^ 2 - x1 - x2)) - y1, 1)

variable {x1 y1 x2 y2 x y : K}

/-- The factor of a sum is the ordinate of the difference, but for a cube. -/
theorem add_chord (on1 : y1 ^ 2 = x1 ^ 3 + curve.a * x1 + curve.b)
    (on2 : y2 ^ 2 = x2 ^ 3 + curve.a * x2 + curve.b) (apart : x1 - x2 ≠ 0) :
    add curve (x1, y1, 1) (x2, y2, 1) =
      scale (-(x1 - x2) ^ 3 * (third ((y1 + y2) / (x1 - x2)) x1 y1 x2).2.1)
        (third ((y1 - y2) / (x1 - x2)) x1 y1 x2) := by
  have b_eq : curve.b = y1 ^ 2 - x1 ^ 3 - curve.a * x1 := by linear_combination -on1
  have a_eq : curve.a = (y1 ^ 2 - y2 ^ 2 - (x1 ^ 3 - x2 ^ 3)) / (x1 - x2) := by
    rw [eq_div_iff apart]
    linear_combination on2 - on1
  simp only [add, scale, third, b_eq, a_eq]
  refine Prod.ext ?_ (Prod.ext ?_ ?_)
  all_goals
    field_simp
    ring

variable (on : y ^ 2 = x ^ 3 + curve.a * x + curve.b) (two : (2 : K) ≠ 0) (off : y ≠ 0)
include on two off

theorem add_tangent :
    add curve (x, y, 1) (x, y, 1) =
      scale ((2 * y) ^ 3) (third ((3 * x ^ 2 + curve.a) / (2 * y)) x y x) := by
  have b_eq : curve.b = y ^ 2 - x ^ 3 - curve.a * x := by linear_combination -on
  simp only [add, scale, third, b_eq]
  refine Prod.ext ?_ (Prod.ext ?_ ?_)
  all_goals
    field_simp
    ring

theorem add_opposite :
    add curve (x, y, 1) (x, -y, 1) =
      scale ((2 * y) ^ 3 * (third ((3 * x ^ 2 + curve.a) / (2 * y)) x y x).2.1) zero := by
  have b_eq : curve.b = y ^ 2 - x ^ 3 - curve.a * x := by linear_combination -on
  simp only [add, scale, zero, third, b_eq]
  refine Prod.ext ?_ (Prod.ext ?_ ?_)
  all_goals
    field_simp
    ring

end Identities

/-! ### Points -/

/-- The curve, in the form of Weierstrass. -/
def Curve.weierstrass (curve : Curve K) : Affine K := ⟨0, 0, 0, curve.a, curve.b⟩

abbrev Curve.Point (curve : Curve K) : Type := curve.weierstrass.Point

def coordinates : curve.Point → Pt3 K
  | .zero => zero
  | .some x y _ => (x, y, 1)

/-- Projective coordinates of a point, with any denominator. -/
def Represents (p : Pt3 K) (P : curve.Point) : Prop := ∃ w ≠ 0, p = scale w (coordinates P)

/-- Coordinates on the curve, not all of which are zero. -/
def OnCurve (curve : Curve K) (p : Pt3 K) : Prop :=
  p ≠ 0 ∧ p.2.1 ^ 2 * p.2.2 = p.1 ^ 3 + curve.a * p.1 * p.2.2 ^ 2 + curve.b * p.2.2 ^ 3

variable {p q : Pt3 K} {P Q : curve.Point}

theorem equation_of {x y : K} (on : curve.weierstrass.Nonsingular x y) :
    y ^ 2 = x ^ 3 + curve.a * x + curve.b := by
  simpa [Curve.weierstrass] using (equation_iff x y).mp on.1

theorem negY_eq (curve : Curve K) (x y : K) : curve.weierstrass.negY x y = -y := by
  simp [negY, Curve.weierstrass]

theorem two_of_smooth (smooth : curve.weierstrass.Δ ≠ 0) : (2 : K) ≠ 0 := by
  refine fun zero => smooth ?_
  simp only [Δ, b₂, b₄, b₆, b₈, Curve.weierstrass]
  linear_combination (-32 * curve.a ^ 3 - 216 * curve.b ^ 2) * zero

theorem Represents.scale (is : Represents p P) {w : K} (nonzero : w ≠ 0) :
    Represents (scale w p) P := by
  obtain ⟨v, other, rfl⟩ := is
  exact ⟨w * v, mul_ne_zero nonzero other, by simp only [Ec.scale, mul_assoc]⟩

theorem Represents.unique (left : Represents p P) (right : Represents p Q) : P = Q := by
  obtain ⟨v, leftNonzero, rfl⟩ := left
  obtain ⟨w, rightNonzero, same⟩ := right
  match P, Q with
  | .zero, .zero => rfl
  | .zero, .some _ _ _ => simp_all [Ec.scale, coordinates, zero]
  | .some _ _ _, .zero => simp_all [Ec.scale, coordinates, zero]
  | .some x1 y1 _, .some x2 y2 _ =>
    simp only [Ec.scale, coordinates, Prod.mk.injEq, mul_one] at same
    obtain ⟨sameX, sameY, rfl⟩ := same
    obtain rfl := mul_left_cancel₀ rightNonzero sameX
    obtain rfl := mul_left_cancel₀ rightNonzero sameY
    rfl

theorem onCurve_iff (smooth : curve.weierstrass.Δ ≠ 0) :
    OnCurve curve p ↔ ∃! P : curve.Point, Represents p P := by
  obtain ⟨x, y, z⟩ := p
  constructor
  · rintro ⟨nonzero, on⟩
    refine existsUnique_of_exists_of_unique ?_ fun _ _ => Represents.unique
    by_cases infinite : z = 0
    · subst infinite
      obtain rfl : x = 0 := by simpa using on.symm
      exact ⟨.zero, y, fun zero => nonzero (by rw [zero]; rfl), by simp [Ec.scale, coordinates, zero]⟩
    · have affine : (y / z) ^ 2 = (x / z) ^ 3 + curve.a * (x / z) + curve.b := by
        field_simp
        linear_combination on
      have onAffine : curve.weierstrass.Equation (x / z) (y / z) := by
        rw [equation_iff]
        simpa [Curve.weierstrass] using affine
      exact ⟨.some _ _ ((equation_iff_nonsingular_of_Δ_ne_zero smooth).mp onAffine), z, infinite,
        by simp [Ec.scale, coordinates, mul_div_cancel₀, infinite]⟩
  · rintro ⟨P, ⟨w, nonzero, same⟩, -⟩
    rw [same]
    match P with
    | .zero => exact ⟨by simpa [Ec.scale, coordinates, zero] using nonzero,
        by simp [Ec.scale, coordinates, zero]⟩
    | .some x' y' on =>
      refine ⟨by simpa [Ec.scale, coordinates] using fun _ _ => nonzero, ?_⟩
      simp only [Ec.scale, coordinates]
      linear_combination w ^ 3 * equation_of on

/-! ### The group -/

variable [DecidableEq K]

/-- No point has order two. -/
def NoHalves (curve : Curve K) : Prop := ∀ ⦃x y : K⦄, curve.weierstrass.Nonsingular x y → y ≠ 0

theorem noHalves (odd : Odd (Nat.card curve.Point)) : NoHalves curve := by
  rintro x y on rfl
  have double : (2 : ℕ) • Point.some x 0 on = 0 := by
    rw [two_nsmul, Point.add_of_Y_eq rfl (by rw [negY_eq, neg_zero])]
  have one : addOrderOf (Point.some x 0 on) = 1 :=
    Nat.eq_one_of_dvd_coprimes (Nat.coprime_two_left.mpr odd)
      (addOrderOf_dvd_of_nsmul_eq_zero double) (addOrderOf_dvd_natCard _)
  exact Point.some_ne_zero on (AddMonoid.addOrderOf_eq_one_iff.mp one)

theorem exists_third {x1 y1 x2 y2 l : K} (on1 : curve.weierstrass.Nonsingular x1 y1)
    (on2 : curve.weierstrass.Nonsingular x2 y2) (other : ¬(x1 = x2 ∧ y1 = -y2))
    (slope : curve.weierstrass.slope x1 x2 y1 y2 = l) :
    ∃ on, Point.some x1 y1 on1 + Point.some x2 y2 on2 =
      Point.some (third l x1 y1 x2).1 (third l x1 y1 x2).2.1 on := by
  rw [← negY_eq curve x2 y2] at other
  have x_eq : curve.weierstrass.addX x1 x2 (curve.weierstrass.slope x1 x2 y1 y2) =
      (third l x1 y1 x2).1 := by
    rw [slope]
    simp [addX, Curve.weierstrass, third]
  have y_eq : curve.weierstrass.addY x1 x2 y1 (curve.weierstrass.slope x1 x2 y1 y2) =
      (third l x1 y1 x2).2.1 := by
    rw [addY, negY_eq, negAddY, x_eq, slope, third]
    ring
  have on := nonsingular_add on1 on2 other
  rw [x_eq, y_eq] at on
  refine ⟨on, ?_⟩
  rw [Point.add_some other]
  simp only [x_eq, y_eq]

theorem double_coordinates (P : curve.Point) :
    double curve (coordinates P) = add curve (coordinates P) (coordinates P) := by
  match P with
  | .zero => simp [coordinates, double, add, zero]
  | .some x y on => exact double_eq_add curve (equation_of on)

section Odd

variable (two : (2 : K) ≠ 0) (none : NoHalves curve)
include two none

theorem add_coordinates (P Q : curve.Point) :
    Represents (add curve (coordinates P) (coordinates Q)) (P + Q) := by
  match P, Q with
  | .zero, .zero => exact ⟨1, one_ne_zero, add_zero_zero curve⟩
  | .zero, .some x y on => exact ⟨y, none on, add_zero_affine curve x y⟩
  | .some x y on, .zero => exact ⟨y, none on, (add_symm ..).trans (add_zero_affine curve x y)⟩
  | .some x1 y1 on1, .some x2 y2 on2 =>
    by_cases same : x1 = x2
    · subst same
      have off : 2 * y1 ≠ 0 := mul_ne_zero two (none on1)
      have twice : y1 ≠ -y1 := fun self => off (by linear_combination self)
      have slope : curve.weierstrass.slope x1 x1 y1 y1 = (3 * x1 ^ 2 + curve.a) / (2 * y1) := by
        rw [slope_of_Y_ne rfl (by rwa [negY_eq]), negY_eq]
        simp [Curve.weierstrass, two_mul]
      obtain ⟨on, sum⟩ := exists_third on1 on1 (fun both => twice both.2) slope
      rcases Y_eq_of_X_eq on1.1 on2.1 rfl with rfl | opposite
      · rw [sum]
        exact ⟨_, pow_ne_zero 3 off, add_tangent (equation_of on1) two (none on1)⟩
      · obtain rfl : y2 = -y1 := by rw [opposite, negY_eq, neg_neg]
        rw [Point.add_of_Y_eq rfl opposite]
        exact ⟨_, mul_ne_zero (pow_ne_zero 3 off) (none on),
          add_opposite (equation_of on1) two (none on1)⟩
    · obtain ⟨on, sum⟩ := exists_third on1 on2 (fun both => same both.1) (slope_of_X_ne same)
      have negated : curve.weierstrass.Nonsingular x2 (-y2) := by
        rw [← negY_eq, nonsingular_neg]
        exact on2
      obtain ⟨difference, -⟩ :=
        exists_third on1 negated (fun both => same both.1) (slope_of_X_ne same)
      rw [sub_neg_eq_add] at difference
      have apart := sub_ne_zero.mpr same
      rw [sum]
      exact ⟨_, mul_ne_zero (neg_ne_zero.mpr (pow_ne_zero 3 apart)) (none difference),
        add_chord (equation_of on1) (equation_of on2) apart⟩

theorem Represents.add (left : Represents p P) (right : Represents q Q) :
    Represents (add curve p q) (P + Q) := by
  obtain ⟨v, leftNonzero, rfl⟩ := left
  obtain ⟨w, rightNonzero, rfl⟩ := right
  rw [add_scale]
  exact (add_coordinates two none P Q).scale (pow_ne_zero 2 (mul_ne_zero leftNonzero rightNonzero))

theorem Represents.double (is : Represents p P) : Represents (double curve p) (P + P) := by
  obtain ⟨w, nonzero, rfl⟩ := is
  rw [double_scale, double_coordinates]
  exact (add_coordinates two none P P).scale (pow_ne_zero 4 nonzero)

/-! ### Multiples -/

/-- What the loops over the bits of a number keep: a multiple so far, and a power of two. -/
structure Ladder (P : curve.Point) (k m : ℕ) (s : Pt3 K × Pt3 K) : Prop where
  res : Represents s.1 (k • P)
  temp : Represents s.2 (m • P)

omit two none in
theorem Ladder.start (is : Represents p P) : Ladder P 0 1 (zero, p) :=
  ⟨⟨1, one_ne_zero, by simp [Ec.scale, zero, coordinates, Point.zero_def]⟩, by rwa [one_smul]⟩

variable {k m : ℕ} {s : Pt3 K × Pt3 K}

theorem Ladder.step (ladder : Ladder P k m s) (bit : Prop) [Decidable bit] :
    Ladder P (k + if bit then m else 0) (2 * m)
      (if bit then Ec.add curve s.1 s.2 else s.1, Ec.double curve s.2) := by
  refine ⟨?_, by rw [two_mul, add_nsmul]; exact ladder.temp.double two none⟩
  split
  · rw [add_nsmul]
    exact ladder.res.add two none ladder.temp
  · exact ladder.res

theorem scalarMul_represents (is : Represents p P) (n scalar : ℕ) :
    Represents (scalarMul curve n scalar p) ((scalar % 2 ^ n) • P) := by
  rw [scalarMul]
  refine Ladder.res (m := 2 ^ n) ?_
  induction n with
  | zero => simpa [Nat.mod_one] using Ladder.start is
  | succ n ih =>
    rw [List.range_succ, List.foldl_append, mod_two_pow_succ, pow_succ']
    exact ih.step two none (scalar.testBit n = true)

theorem Ladder.bits (ladder : Ladder P k m s) (byte : UInt8) (i : ℕ) :
    ∃ res temp curByte, (List.range i).foldl (fun (res, temp, curByte) _ =>
        (if curByte &&& 1 ≠ 0 then Ec.add curve res temp else res, Ec.double curve temp,
          curByte >>> 1)) (s.1, s.2, byte) = (res, temp, curByte) ∧
      Ladder P (k + byte.toNat % 2 ^ i * m) (2 ^ i * m) (res, temp) ∧
      curByte.toNat = byte.toNat / 2 ^ i := by
  induction i with
  | zero => exact ⟨_, _, _, rfl, by simpa [Nat.mod_one] using ladder, (Nat.div_one _).symm⟩
  | succ i ih =>
    obtain ⟨res, temp, curByte, ran, reached, left⟩ := ih
    rw [List.range_succ, List.foldl_append, ran]
    refine ⟨_, _, _, rfl, ?_, ?_⟩
    · have isBit : curByte &&& 1 ≠ 0 ↔ byte.toNat.testBit i = true := by
        rw [← UInt8.toNat_inj.ne, UInt8.toNat_and, UInt8.toNat_one, Nat.and_one_is_mod, left]
        simp [Nat.testBit_eq_decide_div_mod_eq]
      have next := reached.step two none (curByte &&& 1 ≠ 0)
      rw [mod_two_pow_succ, pow_succ', Nat.mul_assoc, Nat.add_mul, ← Nat.add_assoc, ite_mul,
        zero_mul, ← if_congr isBit rfl rfl]
      exact next
    · rw [UInt8.toNat_shiftRight, left, pow_succ, ← Nat.div_div_eq_div_mul]
      rfl

theorem Ladder.byte (ladder : Ladder P k m s) (byte : UInt8) :
    Ladder P (k + byte.toNat * m) (256 * m) (mulByte curve s byte) := by
  obtain ⟨res, temp, curByte, ran, reached, -⟩ := ladder.bits two none byte 8
  rw [Nat.mod_eq_of_lt byte.toNat_lt] at reached
  rw [mulByte, ran]
  exact reached

theorem scalarMulBytes_represents (is : Represents p P) (scalarBytes : Bytes) :
    Represents (scalarMulBytes curve scalarBytes p) (leValue scalarBytes • P) := by
  have loop : ∀ {k m : ℕ} {s : Pt3 K × Pt3 K}, Ladder P k m s →
      Represents (scalarBytes.foldl (mulByte curve) s).1 ((k + leValue scalarBytes * m) • P) := by
    induction scalarBytes with
    | nil => exact fun ladder => by simpa [leValue] using ladder.res
    | cons byte rest ih =>
      intro k m s ladder
      have last := ih (ladder.byte two none byte)
      rwa [← Nat.mul_assoc, Nat.mul_comm (leValue rest), Nat.add_assoc, ← Nat.add_mul] at last
  rw [scalarMulBytes]
  simpa using loop (Ladder.start is)

end Odd

/-! ### The circuit -/

structure EcCircuit (E : Type) where
  k3bVal : E
  curve : Curve E

namespace EcCircuit

open Logic

variable {E : Type} [CompileField E] [DecidableEq E]

def new (curve : Curve E) : EcCircuit E :=
  let kbVal := curve.b
  ⟨kbVal + (kbVal + kbVal), curve⟩

def add (self : EcCircuit E) (p1 p2 : Pt3 (Wire E)) : Pt3 (Wire E) :=
  let (x1, y1, z1) := p1
  let (x2, y2, z2) := p2
  let t0 := mul x1 x2
  let t1 := mul y1 y2
  let t2 := mul z1 z2
  let t3a := Logic.add x1 y1
  let t4a := Logic.add x2 y2
  let t3b := mul t3a t4a
  let t4b := Logic.add t0 t1
  let t3c := Logic.sub t3b t4b
  let t4c := Logic.add x1 z1
  let t5a := Logic.add x2 z2
  let t4d := mul t4c t5a
  let t5b := Logic.add t0 t2
  let t4e := Logic.sub t4d t5b
  let t5c := Logic.add y1 z1
  let x3Tmp := Logic.add y2 z2
  let t5d := mul t5c x3Tmp
  let x3b := Logic.add t1 t2
  let t5e := Logic.sub t5d x3b
  let a := konst self.curve.a
  let z3a := mul a t4e
  let k3b := konst self.k3bVal
  let x3c := mul k3b t2
  let z3b := Logic.add x3c z3a
  let x3d := Logic.sub t1 z3b
  let z3c := Logic.add t1 z3b
  let y3a := mul x3d z3c
  let t1a := Logic.add t0 t0
  let t1b := Logic.add t1a t0
  let t2a := mul a t2
  let t4f := mul k3b t4e
  let t1c := Logic.add t1b t2a
  let t2b := Logic.sub t0 t2a
  let t2c := mul a t2b
  let t4g := Logic.add t4f t2c
  let t0a := mul t1c t4g
  let y3b := Logic.add y3a t0a
  let t0b := mul t5e t4g
  let x3e := mul t3c x3d
  let x3Res := Logic.sub x3e t0b
  let t0c := mul t3c t1c
  let z3d := mul t5e z3c
  let z3Res := Logic.add z3d t0c
  (x3Res, y3b, z3Res)

def double (self : EcCircuit E) (pt : Pt3 (Wire E)) : Pt3 (Wire E) :=
  let (x, y, z) := pt
  let t0a := mul x x
  let t1 := mul y y
  let t2a := mul z z
  let t3a := mul x y
  let t3b := Logic.add t3a t3a
  let z3a := mul x z
  let z3b := Logic.add z3a z3a
  let a := konst self.curve.a
  let k3b := konst self.k3bVal
  let x3a := mul a z3b
  let y3Tmp := mul k3b t2a
  let y3a := Logic.add x3a y3Tmp
  let x3b := Logic.sub t1 y3a
  let y3b := Logic.add t1 y3a
  let y3c := mul x3b y3b
  let x3c := mul t3b x3b
  let z3c := mul k3b z3b
  let t2b := mul a t2a
  let t3c := Logic.sub t0a t2b
  let t3d := mul a t3c
  let t3e := Logic.add t3d z3c
  let z3d := Logic.add t0a t0a
  let t0b := Logic.add z3d t0a
  let t0c := Logic.add t0b t2b
  let t0d := mul t0c t3e
  let y3Res := Logic.add y3c t0d
  let t2c := mul y z
  let t2d := Logic.add t2c t2c
  let t0e := mul t2d t3e
  let x3Res := Logic.sub x3c t0e
  let z3e := mul t2d t1
  let z3f := Logic.add z3e z3e
  let z3Res := Logic.add z3f z3f
  (x3Res, y3Res, z3Res)

/-- Wires that hold coordinates. -/
def Holds (w : Pt3 (Wire E)) (p : Pt3 E) : Prop := w.1.Is p.1 ∧ w.2.1.Is p.2.1 ∧ w.2.2.Is p.2.2

theorem Holds.add {v w : Pt3 (Wire E)} {p q : Pt3 E} (left : Holds v p) (right : Holds w q)
    (curve : Curve E) : Holds ((new curve).add v w) (Ec.add curve p q) := by
  obtain ⟨⟨_, x1⟩, ⟨_, y1⟩, ⟨_, z1⟩⟩ := v
  obtain ⟨⟨_, x2⟩, ⟨_, y2⟩, ⟨_, z2⟩⟩ := w
  obtain ⟨⟨rfl, rfl⟩, ⟨rfl, rfl⟩, ⟨rfl, rfl⟩⟩ := left
  obtain ⟨⟨rfl, rfl⟩, ⟨rfl, rfl⟩, ⟨rfl, rfl⟩⟩ := right
  exact ⟨⟨rfl, rfl⟩, ⟨rfl, rfl⟩, ⟨rfl, rfl⟩⟩

theorem Holds.double {w : Pt3 (Wire E)} {p : Pt3 E} (holds : Holds w p) (curve : Curve E) :
    Holds ((new curve).double w) (Ec.double curve p) := by
  obtain ⟨⟨_, x⟩, ⟨_, y⟩, ⟨_, z⟩⟩ := w
  obtain ⟨⟨rfl, rfl⟩, ⟨rfl, rfl⟩, ⟨rfl, rfl⟩⟩ := holds
  exact ⟨⟨rfl, rfl⟩, ⟨rfl, rfl⟩, ⟨rfl, rfl⟩⟩

end EcCircuit

/-- **The formulas are complete** on a smooth curve of odd order: coordinates on the curve are those
of one point, and the code computes sums, doubles and multiples of points, and the circuit the same
coordinates. -/
theorem formulas_complete (curve : Curve K) (smooth : curve.weierstrass.Δ ≠ 0)
    (odd : Odd (Nat.card curve.Point)) :
    (∀ p, OnCurve curve p ↔ ∃! P : curve.Point, Represents p P) ∧
    (∀ {p q : Pt3 K} {P Q : curve.Point}, Represents p P → Represents q Q →
      Represents (add curve p q) (P + Q)) ∧
    (∀ {p : Pt3 K} {P : curve.Point}, Represents p P → Represents (double curve p) (P + P) ∧
      (∀ n scalar, Represents (scalarMul curve n scalar p) ((scalar % 2 ^ n) • P)) ∧
      ∀ scalarBytes, Represents (scalarMulBytes curve scalarBytes p) (leValue scalarBytes • P)) ∧
    ∀ {E : Type} [CompileField E] [DecidableEq E] (curve : Curve E) {v w : Pt3 (Wire E)}
      {p q : Pt3 E}, EcCircuit.Holds v p → EcCircuit.Holds w q →
        EcCircuit.Holds ((EcCircuit.new curve).add v w) (add curve p q) ∧
        EcCircuit.Holds ((EcCircuit.new curve).double v) (double curve p) := by
  have two := two_of_smooth smooth
  have none := noHalves odd
  exact ⟨fun _ => onCurve_iff smooth, fun left right => left.add two none right,
    fun is => ⟨is.double two none, scalarMul_represents two none is,
      scalarMulBytes_represents two none is⟩,
    fun curve _ _ _ _ left right => ⟨left.add right curve, left.double curve⟩⟩

local instance prime_five : Fact (Nat.Prime 5) := ⟨by decide⟩

/-- A curve of nine points. -/
def nineCurve : Curve (ZMod 5) := ⟨1, 1, 0, 1⟩

theorem smooth_nineCurve : nineCurve.weierstrass.Δ ≠ 0 := by decide

theorem nonsingular_nineCurve (x y : ZMod 5) :
    nineCurve.weierstrass.Nonsingular x y ↔ y * y = x * x * x + x + 1 := by
  rw [← equation_iff_nonsingular_of_Δ_ne_zero smooth_nineCurve, equation_iff]
  simp [Curve.weierstrass, nineCurve, pow_succ]

theorem odd_nineCurve : Odd (Nat.card nineCurve.Point) := by
  rw [Nat.card_congr nineCurve.weierstrass.nonsingularPointEquiv]
  simp only [nonsingular_nineCurve]
  have nine := Finite.card_option.trans (congrArg (· + 1)
    (Nat.card_eq_fintype_card (α := {p : ZMod 5 × ZMod 5 // p.2 * p.2 = p.1 * p.1 * p.1 + p.1 + 1})))
  exact nine ▸ by decide

theorem formulas_complete_nine : ∃ P : nineCurve.Point, Represents (0, 1, 1) P ∧
    Represents (scalarMul nineCurve 2 3 (0, 1, 1)) (3 • P) := by
  obtain ⟨points, -, multiples, -⟩ := formulas_complete nineCurve smooth_nineCurve odd_nineCurve
  obtain ⟨P, is, -⟩ := (points (0, 1, 1)).mp ⟨by decide, by decide⟩
  exact ⟨P, is, (multiples is).2.1 2 3⟩

/-- Without rounds nothing is added. -/
theorem scalarMul_truncates : ∃ P : nineCurve.Point, Represents (0, 1, 1) P ∧
    ¬Represents (scalarMul nineCurve 0 1 (0, 1, 1)) (1 • P) := by
  refine ⟨.some 0 1 ((nonsingular_nineCurve 0 1).mpr (by decide)), ⟨1, one_ne_zero, by decide⟩, ?_⟩
  rw [one_smul, scalarMul]
  rintro ⟨w, nonzero, same⟩
  have last : (0 : ZMod 5) = w * 1 := congrArg (fun p => p.2.2) same
  exact nonzero (by rw [last, mul_one])

end Longfellow.Ec
