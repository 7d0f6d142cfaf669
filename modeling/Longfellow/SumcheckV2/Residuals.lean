/-
**The residuals of an unmasked v2 proof.**

What the constraints of a proof say once the pads are added back: the claim of a layer, carried
through its round polynomials, minus the product of its two final claims, and at the end the last
claim minus the weighted inputs.

* `buildConstraints_denotes` — **the constraints denote the residuals**.
-/

import Longfellow.SumcheckV2.Prover

namespace Longfellow.SumcheckV2

open Lib

variable {ε σ E : Type} [CommRing E]

/-! ### The numbers -/

/-- The coefficients of a round with their pads added back. -/
def RoundPoly.unmask (message pad : RoundPoly E) : RoundPoly E :=
  ⟨(message.coefficients.1 + pad.coefficients.1, message.coefficients.2 + pad.coefficients.2)⟩

/-- A layer with its pads added back. -/
def LayerProof.unmask (message pad : LayerProof E) : LayerProof E where
  rounds := List.zipWith RoundPoly.unmask message.rounds pad.rounds
  claims := (message.claims.1 + pad.claims.1, message.claims.2 + pad.claims.2)

/-- A proof with its pads added back. -/
def SumcheckProof.unmask (proof pads : SumcheckProof E) : SumcheckProof E :=
  ⟨List.zipWith LayerProof.unmask proof.layers pads.layers⟩

/-- Carry a claim through the rounds of a layer. -/
def foldRounds : List (RoundPoly E) → List E → E → E
  | m :: rounds, z :: zs, claim =>
    foldRounds rounds zs
      (z * z * claim + (1 - z * z) * m.coefficients.1 + z * m.coefficients.2)
  | _, _, claim => claim

/-- The residuals of the layers, and the claim that is left. -/
def numericResiduals : E → List (LayerProof E) → List (LayerChallenges E) → List E × E
  | claim, layer :: layers, challenges :: rest =>
    let (later, last) := numericResiduals (layer.claims.1 + challenges.alpha * layer.claims.2)
      layers rest
    ((foldRounds layer.rounds challenges.pointL claim - layer.claims.1 * layer.claims.2) :: later,
      last)
  | claim, _, _ => ([], claim)

/-- **The residuals of an unmasked proof**: one for each layer, then the input. -/
def residualsOf (unmasked : SumcheckProof E) (challenges : List (LayerChallenges E))
    (inputWeights inputs : List E) : List E :=
  let (layers, last) := numericResiduals 0 unmasked.layers challenges
  layers ++ [last - dot inputWeights inputs]

/-! ### What the constraints denote -/

variable {pads : SumcheckProof E}

variable {claim : PadExpression E} {value : E}

theorem denotes_runRounds {layer : Nat} {pad : LayerProof E}
    (isLayer : pads.layers[layer]? = some pad) {rounds padRounds : List (RoundPoly E)} {zs : List E}
    (first : Nat) (padsHere : pad.rounds.drop first = padRounds)
    (padSize : padRounds.length = rounds.length) (size : zs.length = rounds.length)
    (denotes : claim.Denotes (padValue pads) value) :
    (claim.runRounds layer first rounds zs).Denotes (padValue pads)
      (foldRounds (List.zipWith RoundPoly.unmask rounds padRounds) zs value) := by
  induction rounds generalizing padRounds zs claim value first with
  | nil => exact denotes
  | cons m rounds ih =>
    obtain ⟨padPoly, padRounds, rfl⟩ := List.exists_cons_of_length_eq_add_one padSize
    obtain ⟨z, zs, rfl⟩ := List.exists_cons_of_length_eq_add_one size
    obtain ⟨isRound, rest⟩ := of_drop_eq_cons padsHere
    have stepped := denotes_round denotes isLayer isRound m.coefficients z
    exact ih (first + 1) rest (by simpa using padSize) (by simpa using size) stepped

/-- The constraints of a list of layers denote their residuals, up to the products of the claim
pads. -/
inductive LayersDenote (pads : SumcheckProof E) : Nat → List (PadExpression E) → List E → Prop where
  | nil (layer : Nat) : LayersDenote pads layer [] []
  | cons {layer : Nat} {constraint : PadExpression E} {pad : LayerProof E} {value : E}
      {constraints : List (PadExpression E)} {values : List E}
      (isLayer : pads.layers[layer]? = some pad)
      (here : constraint.Denotes (padValue pads) (value + pad.claims.1 * pad.claims.2))
      (later : LayersDenote pads (layer + 1) constraints values) :
      LayersDenote pads layer (constraint :: constraints) (value :: values)

variable {challenges : List (LayerChallenges E)}

/-- The layers behind `before`. -/
theorem buildLayers_denotes (before : List (LayerProof E)) {later padsLater : List (LayerProof E)}
    (denotes : claim.Denotes (padValue pads) value)
    (padsHere : pads.layers.drop before.length = padsLater)
    (shapes : List.Forall₂ (fun layer (pad : LayerProof E) =>
      pad.rounds.length = layer.rounds.length) later padsLater)
    (fits : List.Forall₂ (fun (layer : LayerProof E) (challenge : LayerChallenges E) =>
      challenge.pointL.length = layer.rounds.length) later challenges) :
    let numeric := numericResiduals value (List.zipWith LayerProof.unmask later padsLater) challenges
    ∃ constraints last, (buildLayers ⟨before ++ later⟩ before.length challenges claim :
        Exec ε _) = .ok (constraints, last) ∧
      constraints.length = later.length ∧
      LayersDenote pads before.length constraints numeric.1 ∧
      last.Denotes (padValue pads) numeric.2 := by
  induction fits generalizing before padsLater claim value with
  | nil => exact ⟨[], claim, rfl, rfl, .nil _, denotes⟩
  | @cons layer challenge later rest here _ ih =>
    obtain - | @⟨_, pad, _, padsLater, shape, shapes⟩ := shapes
    obtain ⟨isLayer, padsNext⟩ := of_drop_eq_cons padsHere
    have rounds := denotes_runRounds isLayer 0 rfl shape here denotes
    have recorded := denotes_subtractClaimProduct rounds isLayer layer.claims
    have next := denotes_claimNext isLayer layer.claims challenge.alpha
    have append : before ++ layer :: later = (before ++ [layer]) ++ later := by simp
    have index : (before ++ [layer]).length = before.length + 1 := by simp
    obtain ⟨constraints, last, ran, size, layers, final⟩ :=
      ih (before ++ [layer]) next (by rw [index]; exact padsNext) shapes
    rw [index] at ran layers
    rw [← append] at ran
    have found : (before ++ layer :: later)[before.length]? = some layer := by simp
    refine ⟨_, last, ?_, congrArg (· + 1) size, .cons isLayer recorded layers, final⟩
    rw [buildLayers, getAt_eq_ok.mpr found, ok_bind, ensure_of here.symm, ok_bind]
    simp only [ran, ok_bind, pure_eq_ok]

variable {proof : SumcheckProof E}

/-- **The constraints denote the residuals.** -/
theorem buildConstraints_denotes (inputWeights : List E)
    (shapes : List.Forall₂ (fun layer (pad : LayerProof E) =>
      pad.rounds.length = layer.rounds.length) proof.layers pads.layers)
    (fits : List.Forall₂ (fun (layer : LayerProof E) (challenge : LayerChallenges E) =>
      challenge.pointL.length = layer.rounds.length) proof.layers challenges) :
    let numeric := numericResiduals 0 (proof.unmask pads).layers challenges
    ∃ constraints, (buildConstraints proof challenges inputWeights : Exec ε _) = .ok constraints ∧
      constraints.layers.length = proof.layers.length ∧
      LayersDenote pads 0 constraints.layers numeric.1 ∧
      constraints.inputWeights = inputWeights ∧
      constraints.inputClaim.Denotes (padValue pads) numeric.2 := by
  obtain ⟨proofs⟩ := proof
  obtain ⟨constraints, last, ran, size, layers, final⟩ := buildLayers_denotes (ε := ε) []
    (Affine.denotes_constant _ 0) List.drop_zero shapes fits
  have ran : (buildLayers ⟨proofs⟩ 0 challenges ⟨0, []⟩ : Exec ε _) = .ok (constraints, last) := ran
  refine ⟨⟨constraints, last, inputWeights⟩, ?_, size, layers, rfl, final⟩
  rw [buildConstraints, ensure_of fits.length_eq, ok_bind, ran, ok_bind]
  rfl

theorem LayersDenote.layerResiduals_eq {layer : Nat} {constraints : List (PadExpression E)}
    {values : List E} (denote : LayersDenote pads layer constraints values) :
    layerResiduals pads constraints (pads.layers.drop layer) = .ok values := by
  induction denote with
  | nil layer => simp [layerResiduals]
  | @cons layer constraint pad value constraints values isLayer here _ ih =>
    obtain ⟨bound, isPad⟩ := List.getElem?_eq_some_iff.mp isLayer
    rw [← List.cons_getElem_drop_succ (h := bound), isPad, layerResiduals,
      evaluate_of_denotes here, ok_bind, ih, ok_bind, pure_eq_ok, add_sub_cancel_right]

variable {constraints : Constraints E}

/-- **The numeric check computes the residuals.** -/
theorem residuals_eq {values inputs : List E}
    (layers : LayersDenote pads 0 constraints.layers values)
    (input : constraints.inputClaim.Denotes (padValue pads) value)
    (count : pads.layers.length = constraints.layers.length)
    (sizes : inputs.length = constraints.inputWeights.length) :
    constraints.residuals inputs pads =
      .ok (values ++ [value - dot constraints.inputWeights inputs]) := by
  have shape : ¬(pads.layers.length ≠ constraints.layers.length ∨
      inputs.length ≠ constraints.inputWeights.length) := by
    simp [count, sizes]
  have all := layers.layerResiduals_eq
  rw [List.drop_zero] at all
  rw [Constraints.residuals, check_of shape, ok_bind, all, ok_bind, evaluate_of_denotes input,
    ok_bind, Blas.dot_eq sizes.symm, ok_bind, pure_eq_ok]

/-! ### The data of a verifier -/

omit [CommRing E] in
theorem shapes_of_geometry {logws : List Nat} {layers padLayers : List (LayerProof E)}
    (rounds : List.Forall₂ (fun logw (layer : LayerProof E) => layer.rounds.length = logw) logws
      layers)
    (padRounds : List.Forall₂ (fun logw (layer : LayerProof E) => layer.rounds.length = logw) logws
      padLayers) :
    List.Forall₂ (fun layer (pad : LayerProof E) => pad.rounds.length = layer.rounds.length) layers
      padLayers := by
  refine List.forall₂_iff_get.mpr ⟨rounds.length_eq.symm.trans padRounds.length_eq,
    fun i bound padBound => ?_⟩
  have inside := rounds.length_eq ▸ bound
  rw [rounds.get inside bound, padRounds.get inside padBound]

variable [DecidableEq E] {ts : Transcript σ E}

omit [CommRing E] [DecidableEq E] in
theorem length_deriveRounds (rounds : List (RoundPoly E)) (t : σ) :
    (deriveRounds ts rounds t).1.length = rounds.length := by
  induction rounds generalizing t with
  | nil => rfl
  | cons m rounds ih => exact congrArg (· + 1) (ih _)

theorem fits_deriveLayers {raw : RawCircuit E} {index : Nat} {proofs : List (LayerProof E)}
    {a last : List E} {t t' : σ}
    (derived : (deriveLayers ts raw index proofs a t : Exec ε _) = .ok (challenges, last, t')) :
    List.Forall₂ (fun (layer : LayerProof E) (challenge : LayerChallenges E) =>
      challenge.pointL.length = layer.rounds.length) proofs challenges := by
  induction proofs generalizing index a last t t' challenges with
  | nil =>
    obtain ⟨rfl, -⟩ := Prod.mk.inj (Except.ok.inj derived)
    exact .nil
  | cons proof proofs ih =>
    obtain ⟨⟨challenge, a', _⟩, here, derived⟩ := bind_eq_ok.mp derived
    obtain ⟨⟨rest, _, _⟩, later, derived⟩ := bind_eq_ok.mp derived
    obtain ⟨rfl, -⟩ := Prod.mk.inj (Except.ok.inj derived)
    refine .cons ?_ (ih later)
    obtain ⟨layer, _, here⟩ := bind_eq_ok.mp here
    obtain ⟨_, _, here⟩ := bind_eq_ok.mp here
    obtain ⟨⟨assertions, _⟩, _, here⟩ := bind_eq_ok.mp here
    obtain ⟨weights, _, here⟩ := bind_eq_ok.mp here
    rw [← (Prod.mk.inj (Except.ok.inj here)).1]
    exact length_deriveRounds _ _

/-- **The derived constraints** are built from challenges that fit the proof. -/
theorem deriveConstraints_eq_ok {raw : RawCircuit E} {t t' : σ}
    (derived : deriveConstraints ts raw proof t = .ok (constraints, t')) :
    ∃ challenges inputWeights, proof.Shaped (geometryOf raw) ∧
      List.Forall₂ (fun (layer : LayerProof E) (challenge : LayerChallenges E) =>
        challenge.pointL.length = layer.rounds.length) proof.layers challenges ∧
      inputWeights.length = raw.ninput ∧
      buildConstraints proof challenges inputWeights = (.ok constraints : Exec String _) := by
  obtain ⟨_, validated, derived⟩ := bind_eq_ok.mp derived
  rw [mapErr_eq_ok fun e => raise_ne_ok _ _] at validated
  obtain ⟨⟨a, _⟩, _, derived⟩ := bind_eq_ok.mp derived
  obtain ⟨⟨challenges, weights, _⟩, layers, derived⟩ := bind_eq_ok.mp derived
  obtain ⟨_, width, derived⟩ := bind_eq_ok.mp derived
  obtain ⟨built, isBuilt, derived⟩ := bind_eq_ok.mp derived
  obtain ⟨rfl, -⟩ := Prod.mk.inj (Except.ok.inj derived)
  exact ⟨challenges, weights, SumcheckProof.validate_eq_ok.mp validated, fits_deriveLayers layers,
    not_not.mp (check_eq_ok.mp width), isBuilt⟩

end Longfellow.SumcheckV2
