/-
**Points of a curve** (`core/algebra/src/ec.rs`).

Projective points of a short Weierstrass curve, with the formulas that need no case distinction.
Only the affine coordinates divide: a point with a zero denominator is a panic of the field.

* `affine_asserts` — the one panic of the arithmetic of points.
-/

import Longfellow.Lib.Safe

namespace Longfellow.Ec

open Lib

/-- The coefficients of a curve and its base point. -/
structure Curve (K : Type) where
  a : K
  b : K
  g : K × K

abbrev Pt2 (K : Type) := K × K

abbrev Pt3 (K : Type) := K × K × K

section Points

variable {K : Type} [CommRing K]

/-- The point at infinity. -/
def zero : Pt3 K := (0, 1, 0)

def projective (pt : Pt2 K) : Pt3 K := (pt.1, pt.2, 1)

def add (curve : Curve K) (p1 p2 : Pt3 K) : Pt3 K :=
  let kb := curve.b
  let k3b := kb + (kb + kb)
  let (x1, y1, z1) := p1
  let (x2, y2, z2) := p2
  let t0 := x1 * x2
  let t1 := y1 * y2
  let t2 := z1 * z2
  let t3a := x1 + y1
  let t4a := x2 + y2
  let t3b := t3a * t4a
  let t4b := t0 + t1
  let t3c := t3b - t4b
  let t4c := x1 + z1
  let t5a := x2 + z2
  let t4d := t4c * t5a
  let t5b := t0 + t2
  let t4e := t4d - t5b
  let t5c := y1 + z1
  let x3Tmp := y2 + z2
  let t5d := t5c * x3Tmp
  let x3b := t1 + t2
  let t5e := t5d - x3b
  let a := curve.a
  let z3a := a * t4e
  let x3c := k3b * t2
  let z3b := x3c + z3a
  let x3d := t1 - z3b
  let z3c := t1 + z3b
  let y3a := x3d * z3c
  let t1a := t0 + t0
  let t1b := t1a + t0
  let t2a := a * t2
  let t4f := k3b * t4e
  let t1c := t1b + t2a
  let t2b := t0 - t2a
  let t2c := a * t2b
  let t4g := t4f + t2c
  let t0a := t1c * t4g
  let y3b := y3a + t0a
  let t0b := t5e * t4g
  let x3e := t3c * x3d
  let x3Res := x3e - t0b
  let t0c := t3c * t1c
  let z3d := t5e * z3c
  let z3Res := z3d + t0c
  (x3Res, y3b, z3Res)

def double (curve : Curve K) (pt : Pt3 K) : Pt3 K :=
  let kb := curve.b
  let k3b := kb + (kb + kb)
  let (x, y, z) := pt
  let t0a := x * x
  let t1 := y * y
  let t2a := z * z
  let t3a := x * y
  let t3b := t3a + t3a
  let z3a := x * z
  let z3b := z3a + z3a
  let a := curve.a
  let x3a := a * z3b
  let y3Tmp := k3b * t2a
  let y3a := x3a + y3Tmp
  let x3b := t1 - y3a
  let y3b := t1 + y3a
  let y3c := x3b * y3b
  let x3c := t3b * x3b
  let z3c := k3b * z3b
  let t2b := a * t2a
  let t3c := t0a - t2b
  let t3d := a * t3c
  let t3e := t3d + z3c
  let z3d := t0a + t0a
  let t0b := z3d + t0a
  let t0c := t0b + t2b
  let t0d := t0c * t3e
  let y3Res := y3c + t0d
  let t2c := y * z
  let t2d := t2c + t2c
  let t0e := t2d * t3e
  let x3Res := x3c - t0e
  let z3e := t2d * t1
  let z3f := z3e + z3e
  let z3Res := z3f + z3f
  (x3Res, y3Res, z3Res)

/-- The multiple of a point by the lowest `n` bits of a number. -/
@[irreducible]
def scalarMul (curve : Curve K) (n scalar : ℕ) (pt : Pt3 K) : Pt3 K :=
  ((List.range n).foldl (fun (res, temp) i =>
    (if scalar.testBit i then add curve res temp else res, double curve temp))
    (zero, pt)).1

/-- The bits of a byte, the lowest first. -/
def mulByte (curve : Curve K) (s : Pt3 K × Pt3 K) (byte : UInt8) : Pt3 K × Pt3 K :=
  let s := (List.range 8).foldl (fun (res, temp, curByte) _ =>
    (if curByte &&& 1 ≠ 0 then add curve res temp else res, double curve temp, curByte >>> 1))
    (s.1, s.2, byte)
  (s.1, s.2.1)

def scalarMulBytes (curve : Curve K) (scalarBytes : List UInt8) (pt : Pt3 K) : Pt3 K :=
  (scalarBytes.foldl (mulByte curve) (zero, pt)).1

end Points

section Affine

variable {ε K : Type} [CommRing K] [Inv K] [DecidableEq K]

/-- The inverse of an element, which the field computes only where there is one. -/
def invert (x : K) : Exec ε K := do
  ensure (x ≠ 0) "cannot invert zero"
  return x⁻¹

def affine (p : Pt3 K) : Exec ε (Pt2 K) := do
  let (x, y, z) := p
  let zinv ← invert z
  return (x * zinv, y * zinv)

theorem invert_asserts (x : K) : Asserts (invert x : Exec ε K) (x ≠ 0) x⁻¹ :=
  (asserts_ensure _ _).andThen rfl

/-- The affine coordinates of a point with a denominator. -/
def affineOf (p : Pt3 K) : Pt2 K := (p.1 * p.2.2⁻¹, p.2.1 * p.2.2⁻¹)

theorem affine_asserts (p : Pt3 K) :
    Asserts (affine p : Exec ε (Pt2 K)) (p.2.2 ≠ 0) (affineOf p) := (invert_asserts _).andThen rfl

end Affine

end Longfellow.Ec
