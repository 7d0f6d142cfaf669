/-
**The witness of a signature** (`circuits/ecdsa2/src/concrete.rs`).

The circuit checks `e * G + r * PK - s * R = 0` bit by bit, with all sums of the three points at
hand. The witness divides by the secret of the signature and by the denominators of the points, and
nothing on the way asks whether there is something to divide by.

* `given_asserts`, `derived_asserts` — **exactly the regular signatures have a witness**: for all
  others the code panics.
-/

import Longfellow.Ec.Concrete
import Longfellow.Gadget.LookupPoints

namespace Longfellow.Ecdsa

open Lib Ec Gadget

variable {ε : Type} {p : ℕ}

structure ConcreteSlicing (K : Type) where
  gPk : Pt2 K
  gR : Pt2 K
  pkR : Pt2 K
  gPkR : Pt2 K
  round : Vector (Pt3 K) 256

structure ConcreteGiven (K : Type) where
  pkxy : Pt2 K
  e : K
  rxy : Pt2 K
  ers : Vector K 256

structure ConcreteDerived (K : Type) where
  pkxinv : K
  rxinv : K
  nmsinv : K
  yinv : K
  slicing : ConcreteSlicing K

/-- The bits of the three numbers at a position, as one number. -/
def digit (e rx nms : ℕ) (i : ℕ) : Fin 8 :=
  ⟨(e.testBit i).toNat * 4 + (rx.testBit i).toNat * 2 + (nms.testBit i).toNat, by
    have := (e.testBit i).toNat_lt
    have := (rx.testBit i).toNat_lt
    have := (nms.testBit i).toNat_lt
    omega⟩

/-- The public key and the numbers of a signature. -/
structure Signature (p : ℕ) where
  pkxy : Pt2 (ZMod p)
  e : ℕ
  r : ℕ
  s : ℕ

/-- The point `e / s * G + r / s * PK` for the inverse of `s`. -/
def rProjOf {n : ℕ} (curve : Curve (ZMod p)) (sig : Signature p) (sInv : ZMod n) : Pt3 (ZMod p) :=
  let nes := ((sig.e : ZMod n) * sInv).val
  let nrs := ((sig.r : ZMod n) * sInv).val
  add curve (scalarMul curve 256 nes (projective curve.g))
    (scalarMul curve 256 nrs (projective sig.pkxy))

/-- The number `-s` modulo the order of the group. -/
def nmsOf (n : ℕ) (sig : Signature p) : ℕ := (-(sig.s : ZMod n)).val

def given (curve : Curve (ZMod p)) (n : ℕ) (sig : Signature p) :
    Exec ε (ConcreteGiven (ZMod p)) := do
  let sInv ← invert (sig.s : ZMod n)
  let rProj := rProjOf curve sig sInv
  let rx : ZMod p := sig.r
  let ry := rProj.2.1 * (← invert rProj.2.2)
  return {
    pkxy := sig.pkxy
    e := sig.e
    rxy := (rx, ry)
    ers := Vector.ofFn fun i => lookupPoint 9 (digit sig.e sig.r (nmsOf n sig) i.val) }

-- Irreducible as `scalarMul` is: unfolding would run all steps.
/-- The sums of the points, one step for each bit, from the highest one on. -/
@[irreducible]
def slicingRounds (curve : Curve (ZMod p)) (opts : Vector (Pt3 (ZMod p)) 8)
    (digits : ℕ → Fin 8) : Pt3 (ZMod p) × Vector (Pt3 (ZMod p)) 256 :=
  (List.finRange 256).reverse.foldl (fun (last, round) i =>
    let last := add curve (double curve last) opts[digits i.val]
    (last, round.set i.val last i.isLt)) (zero, Vector.replicate 256 zero)

/-- The affine sums of the points, the steps, and the last one of them. -/
def slicing (curve : Curve (ZMod p)) (n : ℕ) (sig : Signature p) (rPt : Pt3 (ZMod p)) :
    Exec ε (ConcreteSlicing (ZMod p) × Pt3 (ZMod p)) := do
  let g := projective curve.g
  let pk := projective sig.pkxy
  let gPk ← affine (add curve g pk)
  let gR ← affine (add curve g rPt)
  let pkR ← affine (add curve pk rPt)
  let gPkR ← affine (add curve g (projective pkR))
  let opts := #v[zero, rPt, pk, projective pkR, g, projective gR, projective gPk, projective gPkR]
  let (last, round) := slicingRounds curve opts (digit sig.e sig.r (nmsOf n sig))
  return (⟨gPk, gR, pkR, gPkR, round⟩, last)

def derived (curve : Curve (ZMod p)) (n : ℕ) (sig : Signature p) :
    Exec ε (ConcreteDerived (ZMod p)) := do
  let sInv ← invert (sig.s : ZMod n)
  let rProj := rProjOf curve sig sInv
  let rx : ZMod p := sig.r
  let ry := rProj.2.1 * (← invert rProj.2.2)
  let (slicing, last) ← slicing curve n sig (rx, ry, 1)
  let pkxinv ← invert sig.pkxy.1
  let rxinv ← invert rx
  let nmsinv ← invert (nmsOf n sig : ZMod p)
  let yinv ← invert last.2.1
  return { pkxinv, rxinv, nmsinv, yinv, slicing }

def ConcreteGiven.pushElements {K : Type} (given : ConcreteGiven K) : List K :=
  [given.pkxy.1, given.pkxy.2, given.e, given.rxy.1, given.rxy.2] ++ given.ers.toList

def ConcreteDerived.pushElements {K : Type} (derived : ConcreteDerived K) : List K :=
  let slicing := derived.slicing
  [derived.pkxinv, derived.rxinv, derived.nmsinv, derived.yinv, slicing.gPk.1, slicing.gPk.2,
    slicing.gR.1, slicing.gR.2, slicing.pkR.1, slicing.pkR.2, slicing.gPkR.1, slicing.gPkR.2] ++
    slicing.round.toList.flatMap fun pt => [pt.1, pt.2.1, pt.2.2]

/-! ### The points of a signature -/

section Points

variable (curve : Curve (ZMod p)) (n : ℕ) (sig : Signature p)

/-- The point of the signature, before it is made affine. -/
def rProj : Pt3 (ZMod p) := rProjOf curve sig (sig.s : ZMod n)⁻¹

/-- The point of the signature, with the first coordinate that the signature gives. -/
def rPoint : Pt3 (ZMod p) := (sig.r, (rProj curve n sig).2.1 * (rProj curve n sig).2.2⁻¹, 1)

def gPlusPk : Pt3 (ZMod p) := add curve (projective curve.g) (projective sig.pkxy)

def gPlusR : Pt3 (ZMod p) := add curve (projective curve.g) (rPoint curve n sig)

def pkPlusR : Pt3 (ZMod p) := add curve (projective sig.pkxy) (rPoint curve n sig)

def gPlusPkR : Pt3 (ZMod p) :=
  add curve (projective curve.g) (projective (affineOf (pkPlusR curve n sig)))

/-- The eight sums of the three points. -/
def opts : Vector (Pt3 (ZMod p)) 8 := #v[
  zero, rPoint curve n sig, projective sig.pkxy, projective (affineOf (pkPlusR curve n sig)),
  projective curve.g, projective (affineOf (gPlusR curve n sig)),
  projective (affineOf (gPlusPk curve sig)), projective (affineOf (gPlusPkR curve n sig))]

/-- The steps of the sum, and the last one of them. -/
def roundsOf : Pt3 (ZMod p) × Vector (Pt3 (ZMod p)) 256 :=
  slicingRounds curve (opts curve n sig) (digit sig.e sig.r (nmsOf n sig))

/-- **A regular signature**: there is something to divide by wherever the witness divides. -/
structure Regular : Prop where
  s : (sig.s : ZMod n) ≠ 0
  finite : (rProj curve n sig).2.2 ≠ 0
  gPk : (gPlusPk curve sig).2.2 ≠ 0
  gR : (gPlusR curve n sig).2.2 ≠ 0
  pkR : (pkPlusR curve n sig).2.2 ≠ 0
  gPkR : (gPlusPkR curve n sig).2.2 ≠ 0
  pkx : sig.pkxy.1 ≠ 0
  rx : (sig.r : ZMod p) ≠ 0
  y : (roundsOf curve n sig).1.2.1 ≠ 0

def givenOf : ConcreteGiven (ZMod p) where
  pkxy := sig.pkxy
  e := sig.e
  rxy := ((rPoint curve n sig).1, (rPoint curve n sig).2.1)
  ers := Vector.ofFn fun i => lookupPoint 9 (digit sig.e sig.r (nmsOf n sig) i.val)

def slicingOf : ConcreteSlicing (ZMod p) where
  gPk := affineOf (gPlusPk curve sig)
  gR := affineOf (gPlusR curve n sig)
  pkR := affineOf (pkPlusR curve n sig)
  gPkR := affineOf (gPlusPkR curve n sig)
  round := (roundsOf curve n sig).2

def derivedOf : ConcreteDerived (ZMod p) where
  pkxinv := sig.pkxy.1⁻¹
  rxinv := (sig.r : ZMod p)⁻¹
  nmsinv := (nmsOf n sig : ZMod p)⁻¹
  yinv := (roundsOf curve n sig).1.2.1⁻¹
  slicing := slicingOf curve n sig

/-- **What is given of a signature**: its secret is not zero and its point is finite. -/
theorem given_asserts : Asserts (given curve n sig : Exec ε _)
    ((sig.s : ZMod n) ≠ 0 ∧ (rProj curve n sig).2.2 ≠ 0) (givenOf curve n sig) :=
  (invert_asserts _).bind fun _ => (invert_asserts _).andThen rfl

theorem slicing_asserts : Asserts (slicing curve n sig (rPoint curve n sig) : Exec ε _)
    ((gPlusPk curve sig).2.2 ≠ 0 ∧ (gPlusR curve n sig).2.2 ≠ 0 ∧
      (pkPlusR curve n sig).2.2 ≠ 0 ∧ (gPlusPkR curve n sig).2.2 ≠ 0)
    (slicingOf curve n sig, (roundsOf curve n sig).1) :=
  (affine_asserts _).bind fun _ => (affine_asserts _).bind fun _ =>
    (affine_asserts _).bind fun _ => (affine_asserts _).andThen rfl

theorem nmsOf_ne_zero {n : ℕ} [NeZero n] (small : n ≤ p) {sig : Signature p}
    (nonzero : (sig.s : ZMod n) ≠ 0) : (nmsOf n sig : ZMod p) ≠ 0 := by
  intro vanishes
  have below : nmsOf n sig < p := lt_of_lt_of_le (ZMod.val_lt _) small
  have zero : nmsOf n sig = 0 :=
    Nat.eq_zero_of_dvd_of_lt ((ZMod.natCast_eq_zero_iff _ _).mp vanishes) below
  exact nonzero (neg_eq_zero.mp ((ZMod.val_eq_zero _).mp zero))

/-- **Exactly the regular signatures have a witness.** -/
theorem derived_asserts [NeZero n] (small : n ≤ p) :
    Asserts (derived curve n sig : Exec ε _) (Regular curve n sig) (derivedOf curve n sig) := by
  refine Asserts.congr ((invert_asserts _).bind fun s => (invert_asserts _).bind fun _ =>
    (slicing_asserts curve n sig).bind fun _ => (invert_asserts _).bind fun _ =>
      (invert_asserts _).bind fun _ => (invert_asserts _).bind fun _ =>
        (invert_asserts (roundsOf curve n sig).1.2.1).andThen rfl) ?_
  constructor
  · rintro ⟨s, finite, ⟨gPk, gR, pkR, gPkR⟩, pkx, rx, _, y⟩
    exact ⟨s, finite, gPk, gR, pkR, gPkR, pkx, rx, y⟩
  · intro regular
    exact ⟨regular.s, regular.finite, ⟨regular.gPk, regular.gR, regular.pkR, regular.gPkR⟩,
      regular.pkx, regular.rx, nmsOf_ne_zero small regular.s, regular.y⟩

end Points

end Longfellow.Ecdsa
