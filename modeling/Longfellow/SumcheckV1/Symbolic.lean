/-
**Relations on inputs and pads** (`runtime/sumcheck-v1/src/symbolic.rs`,
`runtime/sumcheck-v1/src/verifier_data.rs`).

The claims of the protocol are affine expressions in the pads. Each layer contributes one relation,
the claim after its rounds minus the product of the final claims with the bound wiring tensor, and
the final claims are related to the weighted inputs.

* `denotes_round`, `denotes_endpointClaim` — **what each symbolic step does to the value**.
-/

import Longfellow.Algebra.Blas
import Longfellow.Algebra.Poly
import Longfellow.Lib.Affine
import Longfellow.Proto.SumcheckV1

namespace Longfellow.SumcheckV1

open Lib

variable {E : Type}

/-- The pad of a value of a round or of a final claim. -/
inductive Pad where
  | round (layer round : Nat) (hand : Hand) (evaluation : Nat)
  | endpoint (layer : Nat) (endpoint : Hand)
  deriving DecidableEq, Repr

/-- An affine expression in the pads. -/
abbrev PadExpression (E : Type) := Affine Pad E

/-- A layer accepts when its linear part plus a multiple of the product of its claim pads is zero. -/
structure LayerRelation (E : Type) where
  linear : PadExpression E
  productCoefficient : E
  deriving DecidableEq, Repr

/-- The weighted inputs plus a linear part are zero. -/
structure InputRelation (E : Type) where
  weights : List E
  linear : PadExpression E
  deriving DecidableEq, Repr

structure VerificationRelations (E : Type) where
  layers : List (LayerRelation E)
  input : InputRelation E
  deriving DecidableEq, Repr

/-- The multipliers of the rounds for each hand, the bound wiring tensor and the combination of the
claims on the outputs. -/
structure LayerVerifierData (E : Type) where
  rounds : List (RoundCoefficients E) × List (RoundCoefficients E)
  boundQuad : E
  alpha : E
  deriving DecidableEq, Repr

structure VerifierData (E : Type) where
  layers : List (LayerVerifierData E)
  inputAlpha : E
  inputWeights : List E
  deriving DecidableEq, Repr

/-- The value of a pad. -/
def padValue (pads : SumcheckProof E) : Pad → Option E
  | .round layer round hand evaluation => do
    let layerPads ← pads.layers[layer]?
    let poly ← (hand.get layerPads.hp)[round]?
    slotOf poly.evaluations evaluation
  | .endpoint layer endpoint => do
    let layerPads ← pads.layers[layer]?
    some (endpoint.get layerPads.claims)

variable [CommRing E] {pads : SumcheckProof E}

namespace PadExpression

/-- From the claim before a round to the claim after it. -/
def roundStep (claim : PadExpression E) (layer round : Nat) (hand : Hand) (message : RoundPoly E)
    (coefficients : RoundCoefficients E) : PadExpression E :=
  let claim := claim.scale coefficients.l1
  let claim := claim.addConstant (coefficients.l0MinusL1 * message.evaluations.1)
  let claim := claim.addConstant (coefficients.l2 * message.evaluations.2)
  let claim := claim.addTerm (.round layer round hand 0) coefficients.l0MinusL1
  claim.addTerm (.round layer round hand 1) coefficients.l2

/-- The rounds of a layer from round `i` on, the right hand before the left one. -/
def runRounds (layer : Nat) : Nat → List (RoundPoly E) → List (RoundPoly E) →
    List (RoundCoefficients E) → List (RoundCoefficients E) → PadExpression E → PadExpression E
  | i, m0 :: hp0, m1 :: hp1, c0 :: rounds0, c1 :: rounds1, claim =>
    runRounds layer (i + 1) hp0 hp1 rounds0 rounds1
      (roundStep (roundStep claim layer i .right m0 c0) layer i .left m1 c1)
  | _, _, _, _, _, claim => claim

/-- The combination of the final claims of a layer. -/
def endpointClaim (layer : Nat) (messages : E × E) (alpha : E) : PadExpression E where
  constant := messages.1 + alpha * messages.2
  terms := [(.endpoint layer .right, 1), (.endpoint layer .left, alpha)]

end PadExpression

/-- The relation of a layer from its claim after the rounds: the product of the unmasked final claims
is expanded. -/
def LayerRelation.new (layer : Nat) (claim : PadExpression E) (messages : E × E) (boundQuad : E) :
    LayerRelation E where
  linear :=
    let claim := claim.subConstant (boundQuad * (messages.1 * messages.2))
    let claim := claim.addTerm (.endpoint layer .right) (-(boundQuad * messages.2))
    claim.addTerm (.endpoint layer .left) (-(boundQuad * messages.1))
  productCoefficient := -boundQuad

/-- The claim on the outputs of a layer: zero for the first one. -/
def outputClaim (proof : SumcheckProof E) (layer : Nat) (alpha : E) :
    Exec String (PadExpression E) :=
  if layer = 0 then pure ⟨0, []⟩
  else do
    let before ← getAt proof.layers (layer - 1)
    pure (.endpointClaim (layer - 1) before.claims alpha)

/-- The claim on the inputs of the circuit. -/
def inputClaim (proof : SumcheckProof E) (alpha : E) : PadExpression E :=
  match proof.layers.getLast? with
  | some last => .endpointClaim (proof.layers.length - 1) last.claims alpha
  | none => ⟨0, []⟩

/-- The relations of the layers from index `layer` on. -/
def verifyLayers (proof : SumcheckProof E) : Nat → List (LayerVerifierData E) →
    Exec String (List (LayerRelation E))
  | _, [] => pure []
  | layer, data :: rest => do
    let messages ← getAt proof.layers layer
    let rounds := messages.hp.1.length
    check (¬(messages.hp.2.length ≠ rounds ∨
      (data.rounds.1.length ≠ rounds ∨ data.rounds.2.length ≠ rounds)))
      "sumcheck verifier data round count mismatch"
    let claim ← outputClaim proof layer data.alpha
    let claim := claim.runRounds layer 0 messages.hp.1 messages.hp.2 data.rounds.1 data.rounds.2
    let relations ← verifyLayers proof (layer + 1) rest
    pure (.new layer claim messages.claims data.boundQuad :: relations)

/-- The relations of a proof. -/
def symbolicVerify (proof : SumcheckProof E) (data : VerifierData E) :
    Exec String (VerificationRelations E) := do
  check (¬ proof.layers.length ≠ data.layers.length) "sumcheck verifier data layer count mismatch"
  let layers ← verifyLayers proof 0 data.layers
  pure ⟨layers, ⟨data.inputWeights, (inputClaim proof data.inputAlpha).neg⟩⟩

/-- Substitute the pads. -/
def evaluate (expr : PadExpression E) (pads : SumcheckProof E) : Exec String E :=
  Affine.evaluate "sumcheck relation pad shape mismatch" expr (padValue pads)

/-- The residual of a layer. -/
def LayerRelation.evaluate (relation : LayerRelation E) (pads : SumcheckProof E)
    (layerPads : LayerProof E) : Exec String E := do
  let value ← SumcheckV1.evaluate relation.linear pads
  pure (value + relation.productCoefficient * (layerPads.claims.1 * layerPads.claims.2))

/-- The residuals of the layers. -/
def layerResiduals (pads : SumcheckProof E) :
    List (LayerRelation E) → List (LayerProof E) → Exec String (List E)
  | relation :: relations, layerPads :: rest => do
    let value ← relation.evaluate pads layerPads
    let residuals ← layerResiduals pads relations rest
    pure (value :: residuals)
  | _, _ => pure []

/-- The residuals of the relations: one for each layer, then the input. -/
def VerificationRelations.evaluate (relations : VerificationRelations E) (inputs : List E)
    (pads : SumcheckProof E) : Exec String (List E) := do
  check (¬(pads.layers.length ≠ relations.layers.length ∨
    inputs.length ≠ relations.input.weights.length)) "sumcheck relation input shape mismatch"
  let residuals ← layerResiduals pads relations.layers pads.layers
  let value ← SumcheckV1.evaluate relations.input.linear pads
  let weighted ← Blas.dot relations.input.weights inputs
  pure (residuals ++ [value + weighted])

/-! ### What the symbolic steps do to the value -/

variable {layer : Nat} {layerPads : LayerProof E} {claim : PadExpression E}

omit [CommRing E] in
theorem padValue_round {round : Nat} {hand : Hand} {poly : RoundPoly E}
    (isLayer : pads.layers[layer]? = some layerPads)
    (isRound : (hand.get layerPads.hp)[round]? = some poly) (evaluation : Nat) :
    padValue pads (.round layer round hand evaluation) = slotOf poly.evaluations evaluation := by
  simp [padValue, isLayer, isRound]

omit [CommRing E] in
theorem padValue_endpoint (isLayer : pads.layers[layer]? = some layerPads) (endpoint : Hand) :
    padValue pads (.endpoint layer endpoint) = some (endpoint.get layerPads.claims) := by
  simp [padValue, isLayer]

/-- The unmasked values of a round. -/
def RoundPoly.unmask (message pad : RoundPoly E) : E × E :=
  (message.evaluations.1 + pad.evaluations.1, message.evaluations.2 + pad.evaluations.2)

/-- **A round** maps a claim to the value of its unmasked polynomial at the challenge. -/
theorem denotes_round {value : E}
    (denotes : claim.Denotes (padValue pads) value) {round : Nat} {hand : Hand} {poly : RoundPoly E}
    (isLayer : pads.layers[layer]? = some layerPads)
    (isRound : (hand.get layerPads.hp)[round]? = some poly) (message : RoundPoly E)
    (coefficients : RoundCoefficients E) :
    (PadExpression.roundStep claim layer round hand message coefficients).Denotes (padValue pads)
      (coefficients.evaluate (message.unmask poly) value) := by
  have stepped := ((((denotes.scale coefficients.l1).addConstant
    (coefficients.l0MinusL1 * message.evaluations.1)).addConstant
    (coefficients.l2 * message.evaluations.2)).addTerm (padValue_round isLayer isRound 0)
    coefficients.l0MinusL1).addTerm (padValue_round isLayer isRound 1) coefficients.l2
  convert stepped using 1
  · rfl
  · rw [RoundCoefficients.evaluate, RoundPoly.unmask]
    ring

theorem denotes_endpointClaim (isLayer : pads.layers[layer]? = some layerPads) (m : E × E)
    (alpha : E) :
    (PadExpression.endpointClaim layer m alpha).Denotes (padValue pads)
      ((m.1 + layerPads.claims.1) + alpha * (m.2 + layerPads.claims.2)) := by
  have stepped := ((Affine.denotes_constant (padValue pads) (m.1 + alpha * m.2)).addTerm
    (padValue_endpoint isLayer .right) 1).addTerm (padValue_endpoint isLayer .left) alpha
  convert stepped using 1
  · rfl
  · simp only [Hand.get]
    ring

/-- **The residual of a layer**: its claim minus the bound product. -/
theorem LayerRelation.evaluate_eq {value : E}
    (denotes : claim.Denotes (padValue pads) value) (isLayer : pads.layers[layer]? = some layerPads)
    (m : E × E) (boundQuad : E) :
    (LayerRelation.new layer claim m boundQuad).evaluate pads layerPads =
      .ok (value - boundQuad * ((m.1 + layerPads.claims.1) * (m.2 + layerPads.claims.2))) := by
  have stepped := ((denotes.subConstant (boundQuad * (m.1 * m.2))).addTerm
    (padValue_endpoint isLayer .right) (-(boundQuad * m.2))).addTerm
    (padValue_endpoint isLayer .left) (-(boundQuad * m.1))
  have linear := stepped.evaluate_eq "sumcheck relation pad shape mismatch"
  rw [LayerRelation.evaluate, SumcheckV1.evaluate, LayerRelation.new, linear, ok_bind, pure_eq_ok]
  congr 1
  simp only [Hand.get]
  ring

/-- The claims that the masked ones of the layers before stand for. -/
def Unmasked (pads : SumcheckProof E) (before : List (LayerProof E)) (claims : E × E) : Prop :=
  (before = [] ∧ claims = (0, 0)) ∨ ∃ earlier last lastPad, before = earlier ++ [last] ∧
    pads.layers[earlier.length]? = some lastPad ∧
    claims = (last.claims.1 + lastPad.claims.1, last.claims.2 + lastPad.claims.2)

theorem Unmasked.denotes {before : List (LayerProof E)} {claims : E × E}
    (unmasked : Unmasked pads before claims) (later : List (LayerProof E)) (alpha : E) :
    ∃ claim, outputClaim ⟨before ++ later⟩ before.length alpha = .ok claim ∧
      claim.Denotes (padValue pads) (claims.1 + alpha * claims.2) := by
  rcases unmasked with ⟨rfl, rfl⟩ | ⟨earlier, last, lastPad, rfl, isLayer, rfl⟩
  · refine ⟨⟨0, []⟩, rfl, ?_⟩
    rw [mul_zero, add_zero]
    exact Affine.denotes_constant _ 0
  · refine ⟨_, ?_, denotes_endpointClaim isLayer last.claims alpha⟩
    have size : (earlier ++ [last]).length = earlier.length + 1 := by simp
    have found : (earlier ++ [last] ++ later)[earlier.length]? = some last := by simp
    rw [outputClaim, size, if_neg (Nat.succ_ne_zero _), Nat.add_sub_cancel, getAt_eq_ok.mpr found,
      ok_bind, pure_eq_ok]

theorem Unmasked.denotes_inputClaim {proofs : List (LayerProof E)}
    {claims : E × E} (unmasked : Unmasked pads proofs claims) (alpha : E) :
    (inputClaim ⟨proofs⟩ alpha).Denotes (padValue pads) (claims.1 + alpha * claims.2) := by
  rcases unmasked with ⟨rfl, rfl⟩ | ⟨earlier, last, lastPad, rfl, isLayer, rfl⟩
  · rw [mul_zero, add_zero]
    exact Affine.denotes_constant _ 0
  · have size : (earlier ++ [last]).length - 1 = earlier.length := by simp
    rw [inputClaim]
    simp only [List.getLast?_append, List.getLast?_singleton, Option.some_or, size]
    exact denotes_endpointClaim isLayer last.claims alpha

end Longfellow.SumcheckV1
