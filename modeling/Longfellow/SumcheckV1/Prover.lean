/-
**The v1 sumcheck prover and verifier** (`runtime/sumcheck-v1/src/`: `transcript.rs`, `prover.rs`,
`verifier.rs`).

Layers run from the outputs to the inputs and carry two claims on the witness. A layer binds the
outputs of its terms with the combination of the claims and then binds one bit at a time, of the
right hand and of the left hand in turn, sending two masked values of the round polynomial for each.
The verifier derives the multipliers of the rounds and the bound wiring tensor from the transcript,
and checks the relations on revealed inputs and pads.
-/

import Longfellow.Random.Transcript
import Longfellow.SumcheckV1.HQuad
import Longfellow.SumcheckV1.Symbolic

namespace Longfellow.SumcheckV1

open Lib

variable {σ E : Type} [CommRing E] [DecidableEq E] (ts : Transcript σ E) (f : InterpolationField E)

/-! ### The transcript -/

/-- Sample the two vectors of a circuit; the first one is not used. -/
def beginCircuit (t : σ) : (List E × List E) × σ :=
  let (q, t) := ts.eltFieldSlice maxLogw t
  let (g, t) := ts.eltFieldSlice maxLogw t
  ((q, g), t)

/-- Sample the combination of the claims and the coefficient of the assertions. -/
def beginLayer (t : σ) : (E × E) × σ :=
  let (alpha, t) := ts.eltField t
  let (beta, t) := ts.eltField t
  ((alpha, beta), t)

/-- Absorb a round's message and sample its challenge. -/
def roundChallenge (message : RoundPoly E) (t : σ) : E × σ :=
  ts.eltField (ts.writeEltField message.evaluations.2 (ts.writeEltField message.evaluations.1 t))

/-- Absorb the masked claims of a layer. -/
def endLayer (claims : E × E) (t : σ) : σ := ts.writeEltFieldSlice [claims.1, claims.2] t

/-! ### The prover -/

/-- Add one corner, with the other hand contracted. -/
def fillCorner (wOther : List E) (hand : Hand) (qw : List E) (c : Corner E) : Exec String (List E) := do
  let old ← getAt qw (hand.get c.h)
  let x ← getAt wOther (hand.other.get c.h)
  setAt qw (hand.get c.h) (old + c.v * x)

/-- The wiring tensor with the other hand contracted. -/
def fillRoundWeights (n : Nat) (quad : List (Corner E)) (wOther : List E) (hand : Hand) :
    Exec String (List E) := quad.foldlM (fillCorner wOther hand) (List.replicate n 0)

/-- The sums of the products of the even entries, and of the products of the differences; the partner
of a last entry is zero. -/
def affineSums : List E → List E → E × E
  | q0 :: q1 :: q, w0 :: w1 :: w =>
    let (a0, a2) := affineSums q w
    (q0 * w0 + a0, (q1 - q0) * (w1 - w0) + a2)
  | [q0], [w0] => (q0 * w0, q0 * w0)
  | _, _ => (0, 0)

/-- The values of the round polynomial at the three interpolation points. -/
def quadRoundPoly (qw witnessValues : List E) (sum : E) : E × E × E :=
  let (a0, a2) := affineSums qw witnessValues
  let g1 := sum - a0
  let c1 := g1 - a0 - a2
  let pt2 := f.polyEvaluationPoint 2
  (a0, g1, (a2 * pt2 + c1) * pt2 + a0)

/-- The first and the third value. -/
def toWire (evaluations : E × E × E) : RoundPoly E := ⟨(evaluations.1, evaluations.2.2)⟩

/-- Subtract the pads. -/
def RoundPoly.sub (poly pad : RoundPoly E) : RoundPoly E :=
  ⟨(poly.evaluations.1 - pad.evaluations.1, poly.evaluations.2 - pad.evaluations.2)⟩

/-- The state of a layer: the witness bound for each hand, the wiring tensor, the claim and the
transcript. -/
structure LayerState (σ E : Type) where
  w : List E × List E
  hquad : List (Corner E)
  sum : E
  t : σ

/-- What one round of a hand sends and derives. -/
structure Round (E : Type) where
  message : RoundPoly E
  coefficients : RoundCoefficients E
  challenge : E

/-- One round of one hand. The witness is shared by both hands until the first binding. -/
def proveRound (pad : LayerProof E) (round : Nat) (hand : Hand) (s : LayerState σ E) :
    Exec String (Round E × LayerState σ E) := do
  let wHand := hand.get s.w
  let qw ← fillRoundWeights wHand.length s.hquad (hand.other.get s.w) hand
  let roundValues := toWire (quadRoundPoly f qw wHand s.sum)
  ensure (round < maxLogw) "assertion failed: round < MAX_LOGW"
  let padPoly ← getAt (hand.get pad.hp) round
  let message := roundValues.sub padPoly
  let (challenge, t) := roundChallenge ts message s.t
  let coefficients ← RoundCoefficients.new f (LagrangeBasis.new f 3) challenge
  let sum := coefficients.evaluate roundValues.evaluations s.sum
  let bound ← (if round = 0 ∧ hand = .right then bindOutOfPlace wHand challenge
    else bind wHand challenge : Exec String (List E))
  pure (⟨message, coefficients, challenge⟩,
    ⟨hand.set s.w bound, bindH challenge hand s.hquad, sum, t⟩)

/-- What the rounds of a layer send and derive, for each hand. -/
structure Rounds (E : Type) where
  polys : List (RoundPoly E) × List (RoundPoly E)
  coefficients : List (RoundCoefficients E) × List (RoundCoefficients E)
  challenges : List E × List E

/-- Put a round of each hand in front. -/
def Rounds.cons (right left : Round E) (rest : Rounds E) : Rounds E where
  polys := (right.message :: rest.polys.1, left.message :: rest.polys.2)
  coefficients := (right.coefficients :: rest.coefficients.1, left.coefficients :: rest.coefficients.2)
  challenges := (right.challenge :: rest.challenges.1, left.challenge :: rest.challenges.2)

/-- The rounds of a layer from `round` on. -/
def proveRounds (pad : LayerProof E) : Nat → Nat → LayerState σ E →
    Exec String (Rounds E × LayerState σ E)
  | 0, _, s => pure (⟨([], []), ([], []), ([], [])⟩, s)
  | left + 1, round, s => do
    let (rightRound, s) ← proveRound ts f pad round .right s
    let (leftRound, s) ← proveRound ts f pad round .left s
    let (rest, s) ← proveRounds pad left (round + 1) s
    pure (Rounds.cons rightRound leftRound rest, s)

/-- The two points and the width of the current claims. -/
structure Bindings (E : Type) where
  logv : Nat
  nv : Nat
  challenges : List E × List E

/-- What the proof of a layer returns. -/
structure LayerResult (σ E : Type) where
  proof : LayerProof E
  bindings : Bindings E
  claims : E × E
  data : LayerVerifierData E
  t : σ

/-- Prove one layer. -/
def layer (logw nw : Nat) (wires : List E) (pad : LayerProof E) (hquad : List (Corner E)) (alpha : E)
    (claims : E × E) (t : σ) : Exec String (LayerResult σ E) := do
  ensure (SaneLogw logw) "logw must be sane"
  ensure (wires.length ≤ 2 ^ logw) s!"size of wires {wires.length} exceeds 2^logw {2 ^ logw}"
  let (rounds, s) ← proveRounds ts f pad logw 0
    ⟨(wires, wires), hquad, claims.1 + alpha * claims.2, t⟩
  let claim0 ← asScalar s.w.1
  let claim1 ← asScalar s.w.2
  let hquadScalar ← scalar s.hquad
  ensure (s.sum = claim0 * claim1 * hquadScalar) "reconstructed sum does not match expected"
  let proofClaims := (claim0 - pad.claims.1, claim1 - pad.claims.2)
  let t := endLayer ts proofClaims s.t
  pure ⟨⟨rounds.polys, proofClaims⟩, ⟨logw, nw, rounds.challenges⟩, (claim0, claim1),
    ⟨rounds.coefficients, hquadScalar, alpha⟩, t⟩

/-- What the proof of a list of layers returns. -/
structure LayersResult (σ E : Type) where
  layers : List (LayerProof E)
  data : List (LayerVerifierData E)
  bindings : Bindings E
  t : σ

/-- The layers in turn, with their inputs and pads. -/
def proveLayers (constants : List E) : List Layer → List (List E) → List (LayerProof E) →
    Bindings E → E × E → σ → Exec String (LayersResult σ E)
  | clr :: layers, wires :: inLayers, pad :: pads, bindings, claims, t => do
    let ((alpha, beta), t) := beginLayer ts t
    let hquad ← bindG clr constants bindings.logv bindings.nv bindings.challenges.1
      bindings.challenges.2 alpha beta
    let result ← layer ts f clr.logw clr.nw wires pad hquad alpha claims t
    let rest ← proveLayers constants layers inLayers pads result.bindings result.claims result.t
    pure { rest with layers := result.proof :: rest.layers, data := result.data :: rest.data }
  | _, _, _, bindings, _, t => pure ⟨[], [], bindings, t⟩

/-- Prove a circuit on the inputs of its layers. -/
def proveCore (inLayers : List (List E)) (pad : SumcheckProof E) (raw : RawCircuit E) (t : σ) :
    Exec String (SumcheckProof E × VerifierData E × σ) := do
  mapErr (fun e : IoError => abort ("pad shape mismatch: " ++ e.message))
    (pad.validate (.fromCircuit raw))
  let inLayers := inLayers.map normalize
  let ((_, challenges0), t) := beginCircuit ts t
  ensure (raw.logv ≤ challenges0.length) "range end index out of range for slice"
  let point := challenges0.take raw.logv
  ensure (inLayers.length ≥ raw.layers.length ∧ pad.layers.length ≥ raw.layers.length)
    "assertion failed: in_layers.len() >= num_layers && pad.layers.len() >= num_layers"
  let result ← proveLayers ts f raw.constants raw.layers inLayers pad.layers
    ⟨raw.logv, raw.noutput, (point, point)⟩ (0, 0) t
  let (inputAlpha, t) := ts.eltField result.t
  let inputWeights ← eq2 result.bindings.logv raw.ninput result.bindings.challenges.1
    result.bindings.challenges.2 inputAlpha
  pure (⟨result.layers⟩, ⟨result.data, inputAlpha, inputWeights⟩, t)

/-! ### The verifier -/

/-- The multipliers and the challenges of the rounds of a layer; the validation has checked that both
hands have the same number of messages. -/
def deriveRounds : List (RoundPoly E) → List (RoundPoly E) → σ → Exec String (Rounds E × σ)
  | m0 :: hp0, m1 :: hp1, t => do
    let (z0, t) := roundChallenge ts m0 t
    let c0 ← RoundCoefficients.new f (LagrangeBasis.new f 3) z0
    let (z1, t) := roundChallenge ts m1 t
    let c1 ← RoundCoefficients.new f (LagrangeBasis.new f 3) z1
    let (rest, t) ← deriveRounds hp0 hp1 t
    pure (Rounds.cons ⟨m0, c0, z0⟩ ⟨m1, c1, z1⟩ rest, t)
  | _, _, t => pure (⟨([], []), ([], []), ([], [])⟩, t)

/-- Bind the bits of both hands in turn. -/
def bindAll : List E → List E → List (Corner E) → List (Corner E)
  | right :: rights, left :: lefts, quad => bindAll rights lefts (bindH left .left (bindH right .right quad))
  | _, _, quad => quad

/-- The layers with their messages: the data of the relations and the last points. -/
def deriveLayers (constants : List E) : List Layer → List (LayerProof E) → Bindings E → σ →
    Exec String (List (LayerVerifierData E) × Bindings E × σ)
  | layer :: layers, messages :: proofs, bindings, t => do
    let ((alpha, beta), t) := beginLayer ts t
    let (rounds, t) ← deriveRounds ts f messages.hp.1 messages.hp.2 t
    let quad ← bindG layer constants bindings.logv bindings.nv bindings.challenges.1
      bindings.challenges.2 alpha beta
    let boundQuad ← scalar (bindAll rounds.challenges.1 rounds.challenges.2 quad)
    let t := endLayer ts messages.claims t
    let (data, bindings, t) ← deriveLayers constants layers proofs
      ⟨layer.logw, layer.nw, rounds.challenges⟩ t
    pure (⟨rounds.coefficients, boundQuad, alpha⟩ :: data, bindings, t)
  | _, _, bindings, t => pure ([], bindings, t)

/-- Derive the data of the relations from a proof. -/
def deriveVerifierData (raw : RawCircuit E) (proof : SumcheckProof E) (t : σ) :
    Exec String (VerifierData E × σ) := do
  mapErr (fun e : IoError => raise e.message) (proof.validate (.fromCircuit raw))
  let ((_, initial), t) := beginCircuit ts t
  let (layers, bindings, t) ← deriveLayers ts f raw.constants raw.layers proof.layers
    ⟨raw.logv, raw.noutput, (initial, initial)⟩ t
  let (inputAlpha, t) := ts.eltField t
  let inputWeights ← eq2 bindings.logv raw.ninput bindings.challenges.1 bindings.challenges.2
    inputAlpha
  pure (⟨layers, inputAlpha, inputWeights⟩, t)

/-- Check a proof with revealed inputs and pads. -/
def verifyCore (inputs : List E) (pad : SumcheckProof E) (raw : RawCircuit E)
    (proof : SumcheckProof E) (t : σ) : Exec String σ := do
  mapErr (fun e : IoError => raise e.message) (pad.validate (.fromCircuit raw))
  let (data, t) ← deriveVerifierData ts f raw proof t
  let relations ← symbolicVerify proof data
  let residuals ← relations.evaluate inputs pad
  check (¬∃ value ∈ residuals.take proof.layers.length, value ≠ 0) "got != claim (layer)"
  let last ← expect residuals.getLast? "input relation always exists"
  check (last = 0) "input claim mismatch"
  pure t

end Longfellow.SumcheckV1
