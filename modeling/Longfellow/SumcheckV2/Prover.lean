/-
**The v2 sumcheck prover and its public reduction** (`runtime/sumcheck-v2/src/`: `transcript.rs`,
`monomial.rs`, `dense.rs`, `quad.rs`, `prover.rs`, `reduction.rs`, `verifier.rs`).

Layers run from the outputs to the inputs, with one weighted claim. A layer binds its quadratic
terms with the weights and the witness to a vector, proves the inner product with the witness round
by round, and leaves a weighted claim on its inputs. Prover and verifier derive the challenges and
the weights from the transcript, and both build the constraints.
-/

import Longfellow.Circuit.Basic
import Longfellow.Lib.Multilinear
import Longfellow.Random.Transcript
import Longfellow.SumcheckV2.Symbolic

namespace Longfellow.SumcheckV2

open Lib

variable {ε σ E : Type} [CommRing E] [DecidableEq E] (ts : Transcript σ E)

/-! ### Weights and challenges -/

/-- The first `n` monomials at a point. -/
def weights (logn n : Nat) (point : List E) : Exec ε (List E) := do
  ensure (Longfellow.SaneLogw logn ∧ point.length ≥ logn)
    "assertion failed: sane_logw(logn) && point.len() >= logn"
  ensure (n ≤ 2 ^ logn) "assertion failed: n as u64 <= (1u64 << logn)"
  if n ≠ 0 then fillMonomials (point.take logn).reverse n 1 else pure []

/-- Start the transcript and sample the weights of the outputs. -/
def begin (raw : RawCircuit E) (t : σ) : Exec ε (List E × σ) := do
  ensure (Longfellow.SaneLogw raw.logv) "assertion failed: sane_logw(circuit.raw.logv)"
  let t := ts.writeBytes (ascii "longfellow-sumcheck-v2-projective") t
  let (pointG, t) := ts.eltFieldSlice raw.logv t
  let a ← weights raw.logv raw.noutput pointG
  pure (a, t)

/-- Sample one coefficient for every assertion among the terms. -/
def sampleAssertions : List (Term E) → σ → List E × σ
  | [], t => ([], t)
  | term :: terms, t =>
    if term.k = 0 then
      let (c, t) := ts.eltField t
      let (cs, t) := sampleAssertions terms t
      (c :: cs, t)
    else sampleAssertions terms t

/-- The coefficients of the assertions of a layer. -/
def assertionWeights (layer : Layer) (constants : List E) (layerIndex : Nat) (t : σ) :
    Exec ε (List E × σ) := do
  let t := ts.writeBytes (ascii "single-hand-assertions") t
  let t := ts.writeBytes (leBytes 8 layerIndex) t
  let terms ← layer.terms constants
  pure (sampleAssertions ts terms t)

/-- Absorb a round's message and sample its challenge. -/
def roundChallenge (m : RoundPoly E) (t : σ) : E × σ :=
  ts.eltField (ts.writeEltField m.coefficients.2 (ts.writeEltField m.coefficients.1 t))

/-- Absorb the masked claims and sample their combination. -/
def endLayer (claims : E × E) (t : σ) : E × σ :=
  ts.eltField (ts.writeBytes (ascii "single-hand-combine")
    (ts.writeEltFieldSlice [claims.1, claims.2] t))

/-! ### Binding the quadratic terms -/

/-- The coefficient of a term, an assertion taking the next sampled one, and the coefficients left.
A multiplication by one is left out. -/
def coefficientOf (a assertions : List E) (term : Term E) : Exec ε (E × List E) :=
  if term.k = 0 then
    match assertions with
    | [] => abort "missing assertion challenge"
    | c :: rest => pure (c, rest)
  else do
    let weight ← getAt a term.g.toNat
    if term.k = 1 then pure (weight, assertions) else pure (weight * term.k, assertions)

/-- Add one term to the entry of its free wire, with its other wire bound. -/
def bindTerm (free bound : Term E → UInt32) (a b : List E) (state : List E × List E)
    (term : Term E) : Exec ε (List E × List E) := do
  let (coefficient, rest) ← coefficientOf a state.2 term
  let old ← getAt state.1 (free term).toNat
  let x ← getAt b (bound term).toNat
  let q ← setAt state.1 (free term).toNat (old + coefficient * x)
  pure (q, rest)

/-- Bind the outputs and one wire of a layer. -/
def bindWires (free bound : Term E → UInt32) (layer : Layer) (constants a assertions b : List E) :
    Exec ε (List E) := do
  let terms ← layer.terms constants
  let (q, rest) ← terms.foldlM (bindTerm free bound a b) (List.replicate layer.nw 0, assertions)
  ensure (rest = []) "unused assertion challenge"
  pure q

/-- Bind the left wires: `q_r[r]`, the sum over `g, l` of `a[g] QUAD[g,l,r] b_l[l]`. -/
def bindL (layer : Layer) (constants a assertions bL : List E) : Exec ε (List E) :=
  bindWires Term.h1 Term.h0 layer constants a assertions bL

/-- Bind the right wires: `q_l[l]`, the sum over `g, r` of `a[g] QUAD[g,l,r] b_r[r]`. -/
def bindR (layer : Layer) (constants a assertions bR : List E) : Exec ε (List E) :=
  bindWires Term.h0 Term.h1 layer constants a assertions bR

/-- The weights of the combined claim on the inputs of a layer. -/
def weightsNext (layer : Layer) (constants a assertions pointL : List E) (alpha : E) :
    Exec ε (List E) := do
  let mL ← weights layer.logw layer.nw pointL
  let qR ← bindL layer constants a assertions mL
  Blas.axpy mL alpha qR

/-! ### The prover -/

/-- Bind the low variable of a vector. -/
def bind (v : List E) (z : E) : Exec ε (List E) := do
  ensure (v ≠ []) "cannot bind an empty vector"
  pure (foldPairs z v)

/-- The scalar that is left of a vector. -/
def asScalar (v : List E) : Exec ε E := do
  ensure (v.length = 1) "vector length must be 1"
  getAt v 0

/-- The constant and the linear coefficient of a round's polynomial. -/
def quadRoundPoly (qL w : List E) (claim : E) : Exec ε (RoundPoly E) := do
  ensure (qL.length = w.length) "assertion `left == right` failed"
  let (c0, p1) := pairSums qL w
  pure ⟨(c0, p1 - claim)⟩

/-- What the rounds of a layer return: the messages, the point, the vectors bound at it, the claim
and the transcript. -/
structure Rounds (σ E : Type) where
  rounds : List (RoundPoly E)
  pointL : List E
  w : List E
  qL : List E
  claim : E
  t : σ

/-- One round: send the masked coefficients, sample the challenge, bind both vectors. -/
def round (w qL : List E) (pads : RoundPoly E) (claim : E) (t : σ) :
    Exec ε (RoundPoly E × E × E × List E × List E × σ) := do
  let p ← quadRoundPoly qL w claim
  let (c0, c1) := p.coefficients
  let m : RoundPoly E := ⟨(c0 - pads.coefficients.1, c1 - pads.coefficients.2)⟩
  let (z, t) := roundChallenge ts m t
  let claimNext := claim * (z * z) + (1 - z * z) * c0 + z * c1
  let w ← bind w z
  let qL ← bind qL z
  pure (m, z, claimNext, w, qL, t)

/-- The rounds of a layer. -/
def proveRounds : List (RoundPoly E) → List E → List E → E → σ → Exec ε (Rounds σ E)
  | [], w, qL, claim, t => pure ⟨[], [], w, qL, claim, t⟩
  | roundPads :: pads, w, qL, claim, t => do
    let (m, z, claim, w, qL, t) ← round ts w qL roundPads claim t
    let rest ← proveRounds pads w qL claim t
    pure { rest with rounds := m :: rest.rounds, pointL := z :: rest.pointL }

/-- Prove an inner product; return the messages, the challenges and the next claim. -/
def proveDotProduct (w qL : List E) (pads : LayerProof E) (initialClaim : E) (t : σ) :
    Exec ε (LayerProof E × LayerChallenges E × E × σ) := do
  let rounds ← proveRounds ts pads.rounds w qL initialClaim t
  let claimA ← asScalar rounds.w
  let claimB ← asScalar rounds.qL
  ensure (rounds.claim = claimA * claimB) "single-hand terminal product mismatch"
  let masked := (claimA - pads.claims.1, claimB - pads.claims.2)
  let (alpha, t) := endLayer ts masked rounds.t
  pure (⟨rounds.rounds, masked⟩, ⟨rounds.pointL, alpha⟩, claimA + alpha * claimB, t)

/-- What the proof of a layer returns. -/
structure LayerResult (σ E : Type) where
  proof : LayerProof E
  challenges : LayerChallenges E
  a : List E
  claim : E
  t : σ

/-- Prove one layer and carry its claim to its inputs. -/
def proveLayer (layerIndex : Nat) (w : List E) (pads : LayerProof E) (raw : RawCircuit E)
    (a : List E) (claim : E) (t : σ) : Exec ε (LayerResult σ E) := do
  let layer ← getAt raw.layers layerIndex
  ensure (layer.nw > 0) "sumcheck layer must contain a wire"
  ensure (w.length = layer.nw) "layer witness width mismatch"
  let (assertions, t) ← assertionWeights ts layer raw.constants layerIndex t
  let qL ← bindR layer raw.constants a assertions w
  let (proof, challenges, claim, t) ← proveDotProduct ts w qL pads claim t
  let a ← weightsNext layer raw.constants a assertions challenges.pointL challenges.alpha
  pure ⟨proof, challenges, a, claim, t⟩

/-- The layers from `layerIndex` on: the proofs, the challenges, the last weights and claim. -/
def proveLayers (pads : SumcheckProof E) (raw : RawCircuit E) : Nat → List (List E) → List E →
    E → σ → Exec ε (List (LayerProof E) × List (LayerChallenges E) × List E × σ)
  | _, [], a, _, t => pure ([], [], a, t)
  | layerIndex, w :: wLayers, a, claim, t => do
    let layerPads ← getAt pads.layers layerIndex
    let result ← proveLayer ts layerIndex w layerPads raw a claim t
    let (proofs, challenges, a, t) ←
      proveLayers pads raw (layerIndex + 1) wLayers result.a result.claim result.t
    pure (result.proof :: proofs, result.challenges :: challenges, a, t)

/-- The geometry of the proofs of a circuit. -/
def geometryOf (raw : RawCircuit E) : SumcheckProofGeometry := ⟨raw.layers.map Layer.logw⟩

/-- Prove a circuit on the inputs of its layers. -/
def proveCore (wLayers : List (List E)) (pads : SumcheckProof E) (raw : RawCircuit E) (t : σ) :
    Exec ε (SumcheckProof E × Constraints E × σ) := do
  mapErr (fun e : IoError => abort ("pad shape mismatch: " ++ e.message))
    (pads.validate (geometryOf raw))
  ensure (wLayers.length = raw.layers.length) "assertion `left == right` failed"
  let (a, t) ← begin ts raw t
  let (layers, challenges, a, t) ← proveLayers ts pads raw 0 wLayers a 0 t
  let constraints ← buildConstraints ⟨layers⟩ challenges a
  pure (⟨layers⟩, constraints, t)

/-! ### The public reduction -/

/-- The challenges of the rounds of a layer. -/
def deriveRounds : List (RoundPoly E) → σ → List E × σ
  | [], t => ([], t)
  | m :: rounds, t =>
    let (z, t) := roundChallenge ts m t
    let (zs, t) := deriveRounds rounds t
    (z :: zs, t)

/-- The challenges of a layer and the weights on its inputs. -/
def deriveLayer (layerIndex : Nat) (proof : LayerProof E) (raw : RawCircuit E) (a : List E)
    (t : σ) : Exec ε (LayerChallenges E × List E × σ) := do
  let layer ← getAt raw.layers layerIndex
  ensure (layer.nw > 0) "sumcheck layer must contain a wire"
  let (assertions, t) ← assertionWeights ts layer raw.constants layerIndex t
  let (pointL, t) := deriveRounds ts proof.rounds t
  let (alpha, t) := endLayer ts proof.claims t
  let a ← weightsNext layer raw.constants a assertions pointL alpha
  pure (⟨pointL, alpha⟩, a, t)

/-- The layers from `layerIndex` on. -/
def deriveLayers (raw : RawCircuit E) : Nat → List (LayerProof E) → List E → σ →
    Exec ε (List (LayerChallenges E) × List E × σ)
  | _, [], a, t => pure ([], a, t)
  | layerIndex, proof :: proofs, a, t => do
    let (challenges, a, t) ← deriveLayer ts layerIndex proof raw a t
    let (rest, a, t) ← deriveLayers raw (layerIndex + 1) proofs a t
    pure (challenges :: rest, a, t)

/-- Reconstruct the challenges of a proof and build its constraints. -/
def deriveConstraints (raw : RawCircuit E) (proof : SumcheckProof E) (t : σ) :
    Exec String (Constraints E × σ) := do
  mapErr (fun e : IoError => raise e.message) (proof.validate (geometryOf raw))
  let (a, t) ← begin ts raw t
  let (challenges, a, t) ← deriveLayers ts raw 0 proof.layers a t
  check (¬ a.length ≠ raw.ninput) "single-hand input width mismatch"
  let constraints ← buildConstraints proof challenges a
  pure (constraints, t)

/-- Check a proof with revealed inputs and pads. -/
def verifyCore (inputs : List E) (pads : SumcheckProof E) (raw : RawCircuit E)
    (proof : SumcheckProof E) (t : σ) : Exec String σ := do
  mapErr (fun e : IoError => raise e.message) (pads.validate (geometryOf raw))
  check (¬ inputs.length ≠ raw.ninput) "single-hand input width mismatch"
  let (constraints, t) ← deriveConstraints ts raw proof t
  let residuals ← constraints.residuals inputs pads
  let inputResidual ← expect residuals.getLast? "input constraint always exists"
  check (∀ r ∈ residuals.dropLast, r = 0) "single-hand terminal product mismatch"
  check (inputResidual = 0) "single-hand input claim mismatch"
  pure t

end Longfellow.SumcheckV2
