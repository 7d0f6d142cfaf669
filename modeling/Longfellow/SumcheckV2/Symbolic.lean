/-
**Constraints on the pads** (`runtime/sumcheck-v2/src/symbolic.rs`, and the residuals of
`runtime/sumcheck-v2/src/verifier.rs`).

The claims of the protocol are affine expressions in the secret pads. Each layer contributes one
constraint, its expression minus the product of its two claim pads, and the last claim is
constrained to the weighted inputs.

* `denotes_round`, `denotes_subtractClaimProduct`, `denotes_claimNext` — **what each symbolic step
  does to the value.**
-/

import Longfellow.Algebra.Blas
import Longfellow.Lib.Affine
import Longfellow.Proto.SumcheckV2

namespace Longfellow.SumcheckV2

open Lib

variable {ε E : Type}

/-- The pad of a coefficient of a round or of a final claim. -/
inductive Pad where
  | round (layer round slot : Nat)
  | claim (layer slot : Nat)
  deriving DecidableEq, Repr

/-- An affine expression in the pads. -/
abbrev PadExpression (E : Type) := Affine Pad E

/-- The constraints of a proof: one expression a layer, the claim on the inputs and its weights. -/
structure Constraints (E : Type) where
  layers : List (PadExpression E)
  inputClaim : PadExpression E
  inputWeights : List E
  deriving DecidableEq, Repr

/-- The challenges of a layer. -/
structure LayerChallenges (E : Type) where
  pointL : List E
  alpha : E
  deriving DecidableEq, Repr

/-- The value of a pad. -/
def padValue (pads : SumcheckProof E) : Pad → Option E
  | .round layer round slot => do
    let layerPads ← pads.layers[layer]?
    let poly ← layerPads.rounds[round]?
    slotOf poly.coefficients slot
  | .claim layer slot => do
    let layerPads ← pads.layers[layer]?
    slotOf layerPads.claims slot

variable [CommRing E]

namespace PadExpression

/-- From the claim before a round to the claim after it. -/
def roundStep (expr : PadExpression E) (layer round : Nat) (m : E × E) (z : E) :
    PadExpression E where
  constant := expr.constant * (z * z) + (1 - z * z) * m.1 + z * m.2
  terms := (expr.terms.map fun (pad, k) => (pad, k * (z * z))) ++ [(.round layer round 0, 1 - z * z)]
    ++ [(.round layer round 1, z)]

/-- The affine part of the claim minus the product of the final claims. -/
def subtractClaimProduct (expr : PadExpression E) (layer : Nat) (messages : E × E) :
    PadExpression E where
  constant := expr.constant - messages.1 * messages.2
  terms := expr.terms ++ [(.claim layer 0, -messages.2)] ++ [(.claim layer 1, -messages.1)]

/-- The claim of the next layer. -/
def claimNext (layer : Nat) (messages : E × E) (alpha : E) : PadExpression E where
  constant := messages.1 + alpha * messages.2
  terms := [(.claim layer 0, 1), (.claim layer 1, alpha)]

/-- The rounds of a layer from round `i` on. -/
def runRounds (layer : Nat) : Nat → List (RoundPoly E) → List E → PadExpression E → PadExpression E
  | i, m :: rounds, z :: zs, expr =>
    runRounds layer (i + 1) rounds zs (expr.roundStep layer i m.coefficients z)
  | _, _, _, expr => expr

end PadExpression

/-- The layers from index `layer` on: the constraints recorded and the last claim. -/
def buildLayers (proof : SumcheckProof E) : Nat → List (LayerChallenges E) → PadExpression E →
    Exec ε (List (PadExpression E) × PadExpression E)
  | _, [], claim => pure ([], claim)
  | layer, challenges :: rest, claim => do
    let messages ← getAt proof.layers layer
    ensure (messages.rounds.length = challenges.pointL.length)
      "sumcheck challenge round count mismatch"
    let claim := claim.runRounds layer 0 messages.rounds challenges.pointL
    let recorded := claim.subtractClaimProduct layer messages.claims
    let (layers, last) ← buildLayers proof (layer + 1) rest
      (.claimNext layer messages.claims challenges.alpha)
    pure (recorded :: layers, last)

/-- Propagate an affine claim through a proof and record the constraints. -/
def buildConstraints (proof : SumcheckProof E) (layerChallenges : List (LayerChallenges E))
    (inputWeights : List E) : Exec ε (Constraints E) := do
  ensure (proof.layers.length = layerChallenges.length) "sumcheck challenge layer count mismatch"
  let (layers, inputClaim) ← buildLayers proof 0 layerChallenges ⟨0, []⟩
  pure ⟨layers, inputClaim, inputWeights⟩

/-- Substitute the pads. -/
def evaluate (expr : PadExpression E) (pads : SumcheckProof E) : Exec String E :=
  Affine.evaluate "sumcheck constraint pad shape mismatch" expr (padValue pads)

/-- The residuals of the layers. -/
def layerResiduals (pads : SumcheckProof E) :
    List (PadExpression E) → List (LayerProof E) → Exec String (List E)
  | expression :: expressions, layerPads :: rest => do
    let value ← evaluate expression pads
    let residuals ← layerResiduals pads expressions rest
    pure ((value - layerPads.claims.1 * layerPads.claims.2) :: residuals)
  | _, _ => pure []

/-- The residuals of the constraints on the inputs and the pads: one a layer, then the input
claim. -/
def Constraints.residuals (constraints : Constraints E) (inputs : List E)
    (pads : SumcheckProof E) : Exec String (List E) := do
  check (¬(pads.layers.length ≠ constraints.layers.length ∨
    inputs.length ≠ constraints.inputWeights.length)) "sumcheck constraint input shape mismatch"
  let layers ← layerResiduals pads constraints.layers pads.layers
  let input ← evaluate constraints.inputClaim pads
  let weighted ← Blas.dot constraints.inputWeights inputs
  pure (layers ++ [input - weighted])

/-! ### What the symbolic steps do to the value -/

variable {pads : SumcheckProof E} {layer : Nat} {layerPads : LayerProof E}

omit [CommRing E] in
theorem padValue_round {round : Nat} {poly : RoundPoly E}
    (isLayer : pads.layers[layer]? = some layerPads)
    (isRound : layerPads.rounds[round]? = some poly) (slot : Nat) :
    padValue pads (.round layer round slot) = slotOf poly.coefficients slot := by
  simp [padValue, isLayer, isRound]

omit [CommRing E] in
theorem padValue_claim (isLayer : pads.layers[layer]? = some layerPads) (slot : Nat) :
    padValue pads (.claim layer slot) = slotOf layerPads.claims slot := by
  simp [padValue, isLayer]

variable {expr : PadExpression E}

section

variable {value : E} (denotes : expr.Denotes (padValue pads) value)
include denotes

theorem evaluate_of_denotes :
    evaluate expr pads = .ok value :=
  denotes.evaluate_eq _

theorem denotes_round {round : Nat} {poly : RoundPoly E}
    (isLayer : pads.layers[layer]? = some layerPads)
    (isRound : layerPads.rounds[round]? = some poly) (m : E × E) (z : E) :
    (PadExpression.roundStep expr layer round m z).Denotes (padValue pads) (z * z * value +
      (1 - z * z) * (m.1 + poly.coefficients.1) + z * (m.2 + poly.coefficients.2)) := by
  have stepped := ((((denotes.scale (z * z)).addConstant ((1 - z * z) * m.1)).addConstant
    (z * m.2)).addTerm (padValue_round isLayer isRound 0) (1 - z * z)).addTerm
    (padValue_round isLayer isRound 1) z
  convert stepped using 1
  · rfl
  · ring

theorem denotes_subtractClaimProduct (isLayer : pads.layers[layer]? = some layerPads) (m : E × E) :
    (PadExpression.subtractClaimProduct expr layer m).Denotes (padValue pads)
      (value - (m.1 + layerPads.claims.1) * (m.2 + layerPads.claims.2) +
        layerPads.claims.1 * layerPads.claims.2) := by
  have stepped := ((denotes.addConstant (-(m.1 * m.2))).addTerm (padValue_claim isLayer 0)
    (-m.2)).addTerm (padValue_claim isLayer 1) (-m.1)
  convert stepped using 1
  · simp [PadExpression.subtractClaimProduct, Affine.addConstant, Affine.addTerm, sub_eq_add_neg]
  · ring

end

theorem denotes_claimNext (isLayer : pads.layers[layer]? = some layerPads) (m : E × E) (alpha : E) :
    (PadExpression.claimNext layer m alpha).Denotes (padValue pads)
      ((m.1 + layerPads.claims.1) + alpha * (m.2 + layerPads.claims.2)) := by
  have stepped := ((Affine.denotes_constant (padValue pads) (m.1 + alpha * m.2)).addTerm
    (padValue_claim isLayer 0) 1).addTerm (padValue_claim isLayer 1) alpha
  convert stepped using 1
  · rfl
  · ring

end Longfellow.SumcheckV2
