/-
**The v2 protocol** (`runtime/zk-v2/src/prover.rs`, `runtime/zk-v2/src/verifier.rs`,
`runtime/zk-v2/src/context.rs`, `runtime/zk-v2/src/transcript.rs`, `runtime/proto/src/zk_v2.rs`).

The prover commits to its private inputs, the pads of a sumcheck proof and the products of the claim
pads. Once the public inputs are known, it proves the circuit under the pads, and that the committed
values satisfy the constraints compiled from the proof. The verifier derives the same constraints
from the messages.

* `zk_complete` — **what the circuit accepts can be proved**, for public inputs that are fixed after
  the commitment.
-/

import Longfellow.Polygero.Completeness
import Longfellow.Proto.ZkV2
import Longfellow.Sumcheck.Agreement
import Longfellow.ZkV2.ConstraintCompiler

namespace Longfellow.ZkV2

open Lib SumcheckV2 Polygero

variable {ε ρ σ F : Type}

/-! ### The statement -/

/-- A transcript that also takes zeros and samples bytes. -/
structure StatementTranscript (σ E : Type) extends QueryTranscript σ E where
  write0 : Nat → σ → σ
  bytes : Nat → σ → Bytes × σ
  length_bytes : ∀ (n : Nat) (t : σ), (bytes n t).1.length = n

section Statement

variable (ts : StatementTranscript σ F)

/-- Bind the circuit, its public inputs and the zero outputs, and write a zero for every term. -/
def writeSumcheckStatement [Zero F] (circuit : Circuit F) (publicInputs : List F) (t : σ) :
    Exec ε σ := do
  ensure (publicInputs.length = circuit.raw.npublicInput)
    s!"Public inputs length mismatch: expected {circuit.raw.npublicInput}, got {publicInputs.length}"
  let t := ts.writeBytes circuit.id.toList t
  let t := publicInputs.foldl (fun t input => ts.writeEltField input t) t
  let t := ts.writeEltField 0 t
  let nterms ← circuit.raw.layers.mapM Layer.numTerms
  pure (ts.write0 nterms.sum t)

/-- Sample the identifier of the completed sumcheck. -/
def statementDigest (t : σ) : Exec ε (Digest × σ) := do
  let t := ts.writeBytes (ascii "longfellow-v2/polygero-statement/v1") t
  let (bytes, t) := ts.bytes 32 t
  let data ← Merkle.toNonce bytes
  pure (⟨data.bytes⟩, t)

end Statement

/-! ### The layout -/

section Layout

variable (raw : RawCircuit F)

/-- Count private inputs. -/
def privateInputCount : Exec ε Nat := do
  ensure (raw.ninput ≥ raw.npublicInput) "public input count exceeds total inputs"
  pure (raw.ninput - raw.npublicInput)

/-- Count committed values and products of pads. -/
def witnessAndConstraintCount : Exec ε (Nat × Nat) := do
  ensure (raw.ninput ≥ raw.npublicInput)
    s!"npublic_input ({raw.npublicInput}) exceeds ninput ({raw.ninput})"
  let pads ← raw.layers.mapM fun layer => do
    ensure (Longfellow.SaneLogw layer.logw) "logw must be sane"
    padCount layer.logw
  pure (raw.ninput - raw.npublicInput + pads.sum, raw.layers.length)

/-- The geometry of the sumcheck proof, the count of the committed values and the products. -/
def commitmentLayout : Exec ε (SumcheckProofGeometry × Nat × List PolygeroProductConstraint) := do
  let (nw, _) ← witnessAndConstraintCount raw
  let products ← productConstraints (raw.ninput - raw.npublicInput) (geometryOf raw)
  pure (geometryOf raw, nw, products)

/-- Derive the public layout from a circuit. -/
def prepareLayout (sha256 : Bytes → Digest) (config : PolygeroConfig)
    (domain : EvaluationDomain F) : Exec String (ZkProofGeometry × BoundParam) := do
  let (scGeom, nw, products) ← commitmentLayout raw
  let param ← BoundParam.tryNew sha256 nw products config domain
  pure (⟨scGeom, param.geom⟩, param)

end Layout

section Parties

variable [CommRing F] [DecidableEq F] (sha256 : Bytes → Digest) (f : SerializableField F)

/-! ### The prover -/

/-- A trusted circuit and the dimensions of its commitments. -/
structure ZkProver (F : Type) where
  circuit : Circuit F
  config : PolygeroConfig

/-- The private state of one invocation. -/
structure ZkProverCommitment (F : Type) where
  pads : SumcheckProof F
  polygero : PolygeroProver F
  commitment : PolygeroCommitment

/-- Sample pads and commit to them after the private inputs. -/
def ZkProver.commit (prover : ZkProver F) (sf : Subfield F) (ts : StatementTranscript σ F)
    (rng : RandomEngine ρ F) (privateInputs : List F) (domain : EvaluationDomain F) (t : σ)
    (r : ρ) : Exec String ((ZkProverCommitment F × ZkProofGeometry) × σ × ρ) := do
  let raw := prover.circuit.raw
  let nprivate ← privateInputCount raw
  check (privateInputs.length = nprivate) "witness length mismatch"
  let (geom, param) ← prepareLayout raw sha256 prover.config domain
  let ((pads, padValues), r) ← samplePads rng geom.scGeom r
  let ((polygero, commitment), t, r) ← PolygeroProver.commit sha256 f sf ts.toQueryTranscript rng
    (raw.subfieldBoundary - raw.npublicInput) (privateInputs ++ padValues) param t domain r
  pure ((⟨pads, polygero, ⟨commitment.root⟩⟩, geom), t, r)

/-- Run sumcheck, sample its identifier, then compile the constraints. -/
def ZkProver.proveSumcheck (prover : ZkProver F) (ts : StatementTranscript σ F)
    (publicInputs privateInputs : List F) (pads : SumcheckProof F) (t : σ) :
    Exec String ((SumcheckProof F × List (PolygeroLinearTerm F) × List F × Digest) × σ) := do
  let raw := prover.circuit.raw
  mapErr (fun e : IoError => raise e.message) (pads.validate (geometryOf raw))
  let t ← writeSumcheckStatement ts prover.circuit publicInputs t
  let wLayers ← mapErr (fun e => raise ("eval_circuit failed: " ++ e))
    (evalCircuitV2 (publicInputs ++ privateInputs) raw)
  let (proof, constraints, t) ← proveCore ts.toTranscript wLayers pads raw t
  let (statement, t) ← statementDigest ts t
  let layout ← padLayout (geometryOf raw) (← privateInputCount raw)
  let (a, b) ← compile constraints layout publicInputs
  pure ((proof, a, b, statement), t)

/-- Prove sumcheck, then its compiled constraints. -/
def ZkProver.prove (prover : ZkProver F) (ts : StatementTranscript σ F)
    (publicInputs privateInputs : List F) (committed : ZkProverCommitment F)
    (domain : EvaluationDomain F) (t : σ) : Exec String (ZkProof F × σ) := do
  let raw := prover.circuit.raw
  check (publicInputs.length = raw.npublicInput) "public inputs length mismatch"
  check (privateInputs.length = (← privateInputCount raw)) "witness length mismatch"
  let ((sumcheckProof, a, b, statement), t) ← prover.proveSumcheck ts publicInputs privateInputs
    committed.pads t
  let (comProof, t) ← committed.polygero.prove ts.toQueryTranscript b t a statement domain
  pure (⟨sumcheckProof, committed.commitment, comProof⟩, t)

/-! ### The verifier -/

/-- Failures in the public inputs, the reduction or the verification of the commitment. -/
inductive ZkVerificationError where
  | invalidSumcheck (message : String)
  | publicInputLengthMismatch (expected actual : Nat)
  | polygeroVerification (message : String)
  deriving DecidableEq, Repr

/-- A circuit, the geometry of its proofs and the verifier of its commitments. -/
structure ZkVerifier (F : Type) where
  circuit : Circuit F
  geometry : ZkProofGeometry
  polygero : PolygeroVerifier

/-- Prepare the public layout. -/
def ZkVerifier.new (circuit : Circuit F) (config : PolygeroConfig) (domain : EvaluationDomain F) :
    Exec ZkVerificationError (ZkVerifier F) := do
  let (geometry, param) ← mapErr (fun e => raise (.polygeroVerification e))
    (prepareLayout circuit.raw sha256 config domain)
  pure ⟨circuit, geometry, PolygeroVerifier.new param⟩

/-- Receive the root of a proof. -/
def ZkVerifier.receiveCommitment (verifier : ZkVerifier F) (ts : StatementTranscript σ F)
    (proof : ZkProof F) (t : σ) : ZkVerifier F × σ :=
  let (polygero, t) := verifier.polygero.receive ts.toQueryTranscript ⟨proof.com.root⟩ t
  ({ verifier with polygero := polygero }, t)

/-- Check the lengths of the inputs and of the messages. -/
def ZkVerifier.validate (verifier : ZkVerifier F) (publicInputs : List F) (proof : ZkProof F) :
    Exec ZkVerificationError Unit := do
  check (publicInputs.length = verifier.circuit.raw.npublicInput)
    (.publicInputLengthMismatch verifier.circuit.raw.npublicInput publicInputs.length)
  mapErr (fun e : IoError => raise (.invalidSumcheck e.message))
    (proof.sumcheckProof.validate verifier.geometry.scGeom)
  mapErr (fun e : IoError => raise (.polygeroVerification e.message))
    (PolygeroGeometry.Machine.validateProof verifier.geometry.comGeom proof.comProof)

/-- Derive the constraints of sumcheck, sample its identifier, then compile them. -/
def ZkVerifier.compileConstraints (verifier : ZkVerifier F) (ts : StatementTranscript σ F)
    (publicInputs : List F) (proof : ZkProof F) (t : σ) : Exec ZkVerificationError
      ((List (PolygeroLinearTerm F) × List F × Digest) × σ) := do
  let raw := verifier.circuit.raw
  let t ← writeSumcheckStatement ts verifier.circuit publicInputs t
  let (constraints, t) ← mapErr (fun e => raise (.invalidSumcheck e))
    (deriveConstraints ts.toTranscript raw proof.sumcheckProof t)
  let (statement, t) ← statementDigest ts t
  let layout ← padLayout verifier.geometry.scGeom (← privateInputCount raw)
  let (a, b) ← mapErr (fun e => raise (.invalidSumcheck e))
    (compile constraints layout publicInputs)
  pure ((a, b, statement), t)

/-- Verify a proof for public inputs. -/
def ZkVerifier.verify (verifier : ZkVerifier F) (ts : StatementTranscript σ F)
    (publicInputs : List F) (proof : ZkProof F) (domain : EvaluationDomain F) (t : σ) :
    Exec ZkVerificationError σ := do
  verifier.validate publicInputs proof
  let ((a, b, statement), t) ← verifier.compileConstraints ts publicInputs proof t
  mapErr (fun e => raise (.polygeroVerification e))
    (verifier.polygero.verify sha256 f ts.toQueryTranscript b ⟨proof.com.root⟩ proof.comProof a
      statement t domain)

end Parties

/-! ### The commitment of an honest prover -/

variable {sha256 : Bytes → Digest} {f : SerializableField F} {raw : RawCircuit F}
  {config : PolygeroConfig} {domain : EvaluationDomain F}
  {geometry : ZkProofGeometry} {param : BoundParam} {rng : RandomEngine ρ F}
  {circuit : Circuit F} {layout : CircuitPadLayout}

theorem layer_inRange {constants : List F} {ninput noutput : Nat} {layers : List Layer}
    (inRange : LayersInRange constants ninput noutput layers) :
    ∀ layer ∈ layers, layer.InRange constants.length := by
  induction layers generalizing noutput with
  | nil => simp
  | cons layer layers ih => exact List.forall_mem_cons.mpr ⟨inRange.1.indices, ih inRange.2⟩

theorem writeSumcheckStatement_returns [CommRing F] [DecidableEq F] (ts : StatementTranscript σ F)
    (inRange : circuit.raw.InRange) {publicInputs : List F}
    (width : publicInputs.length = circuit.raw.npublicInput) (t : σ) : ∃ t', ∀ {ε : Type},
      (writeSumcheckStatement ts circuit publicInputs t : Exec ε σ) = .ok t' := by
  refine ⟨?after, fun {ε} => ?ran⟩
  case ran =>
    rw [writeSumcheckStatement, ensure_of width, ok_bind,
      mapM_eq_ok_map fun layer member => (layer_inRange inRange layer member).numTerms_eq, ok_bind]
    rfl

theorem statementDigest_returns (ts : StatementTranscript σ F) (t : σ) : ∃ statement t',
    ∀ {ε : Type}, (statementDigest ts t : Exec ε (Digest × σ)) = .ok (statement, t') := by
  refine ⟨?digest, ?after, fun {ε} => ?ran⟩
  case ran =>
    simp only [statementDigest, Merkle.toNonce, dif_pos (ts.length_bytes ..), pure_eq_ok, ok_bind]
    rfl

theorem privateInputCount_of (some : raw.npublicInput ≤ raw.ninput) :
    (privateInputCount raw : Exec ε Nat) = .ok (raw.ninput - raw.npublicInput) := by
  rw [privateInputCount, ensure_of some, ok_bind, pure_eq_ok]

theorem prepareLayout_eq_ok
    (prepared : prepareLayout raw sha256 config domain = .ok (geometry, param)) :
    raw.npublicInput ≤ raw.ninput ∧
      (∀ logw ∈ (geometryOf raw).logwLayers, SumcheckV2.SaneLogw logw) ∧
      geometry = ⟨geometryOf raw, param.geom⟩ ∧ ∃ products,
        (productConstraints (raw.ninput - raw.npublicInput) (geometryOf raw) : Exec String _) =
          .ok products ∧
        BoundParam.tryNew sha256 (raw.ninput - raw.npublicInput +
          ((geometryOf raw).logwLayers.map fun logw => 2 * logw + 3).sum) products config domain =
            .ok param := by
  obtain ⟨⟨_, _, products⟩, laid, prepared⟩ := bind_eq_ok.mp prepared
  obtain ⟨param, made, prepared⟩ := bind_eq_ok.mp prepared
  obtain ⟨rfl, rfl⟩ := Prod.mk.inj (Except.ok.inj prepared)
  obtain ⟨⟨nw, _⟩, counted, laid⟩ := bind_eq_ok.mp laid
  obtain ⟨_, isProducts, laid⟩ := bind_eq_ok.mp laid
  obtain ⟨rfl, parts⟩ := Prod.mk.inj (Except.ok.inj laid)
  obtain ⟨rfl, rfl⟩ := Prod.mk.inj parts
  obtain ⟨_, some, counted⟩ := bind_eq_ok.mp counted
  obtain ⟨pads, each, counted⟩ := bind_eq_ok.mp counted
  obtain ⟨rfl, -⟩ := Prod.mk.inj (Except.ok.inj counted)
  have counts : pads = raw.layers.map (fun layer => 2 * layer.logw + 3) ∧
      ∀ layer ∈ raw.layers, SumcheckV2.SaneLogw layer.logw := by
    clear * - each
    generalize raw.layers = layers at each
    induction mapM_eq_ok each with
    | nil => exact ⟨rfl, by simp⟩
    | cons here later ih =>
      obtain ⟨rfl, sane⟩ := ih (mapM_of_forall₂ later)
      obtain ⟨_, _, here⟩ := bind_eq_ok.mp here
      obtain ⟨_, small, here⟩ := bind_eq_ok.mp here
      obtain rfl := Except.ok.inj here
      exact ⟨rfl, List.forall_mem_cons.mpr ⟨ensure_eq_ok.mp small, sane⟩⟩
  obtain ⟨rfl, sane⟩ := counts
  exact ⟨ensure_eq_ok.mp some, by simpa [geometryOf] using sane, rfl, _, isProducts,
    by simpa [geometryOf, Function.comp_def] using made⟩

/-- The prover and the verifier lay the pads out alike. -/
theorem padLayout_of_ok {ε' : Type} {scGeom : SumcheckProofGeometry} {base : Nat}
    (laidOut : (padLayout scGeom base : Exec ε _) = .ok layout) :
    (padLayout scGeom base : Exec ε' _) = .ok layout := by
  obtain ⟨claims, ran, made⟩ := bind_eq_ok.mp laidOut
  obtain rfl := Except.ok.inj made
  suffices same : (claimIndices scGeom.logwLayers base : Exec ε' _) = .ok claims by
    rw [padLayout, same, ok_bind, pure_eq_ok]
  clear laidOut made
  generalize scGeom.logwLayers = logws at ran
  induction logws generalizing base claims with
  | nil => exact congrArg _ (Except.ok.inj ran)
  | cons logw logws ih =>
    obtain ⟨_, sane, ran⟩ := bind_eq_ok.mp ran
    obtain ⟨count, counted, ran⟩ := bind_eq_ok.mp ran
    obtain ⟨_, _, counted⟩ := bind_eq_ok.mp counted
    obtain rfl := Except.ok.inj counted
    obtain ⟨rest, later, ran⟩ := bind_eq_ok.mp ran
    obtain rfl := Except.ok.inj ran
    simp only [claimIndices, padCount, ensure_of (ensure_eq_ok.mp sane), ih rest later, ok_bind,
      pure_eq_ok]

theorem length_sampleLayers [CommRing F] (rng : RandomEngine ρ F) (logws : List Nat) (r : ρ) :
    (sampleLayers rng logws r).1.2.length = (logws.map fun logw => 2 * logw + 3).sum := by
  induction logws generalizing r with
  | nil => rfl
  | cons logw logws ih =>
    rw [sampleLayers, List.length_append, (rounds_sampleLayer rng logw r).2, ih, List.map_cons,
      List.sum_cons]

theorem addElements_returns {logws : List Nat} (sane : ∀ logw ∈ logws, SumcheckV2.SaneLogw logw)
    {total : Nat} (fits : total + (logws.map fun logw => 2 * logw + 3).sum < 2 ^ 64) :
    ∃ count, logws.foldlM addElements total = .ok count := by
  induction logws generalizing total with
  | nil => exact ⟨total, rfl⟩
  | cons logw logws ih =>
    rw [List.map_cons, List.sum_cons] at fits
    obtain ⟨here, others⟩ := List.forall_mem_cons.mp sane
    have added : addElements total logw = .ok (total + (2 * logw + 2)) := by
      rw [addElements, check_of here, ok_bind, checkedAdd, if_pos (by omega)]
      rfl
    rw [List.foldlM_cons, added, ok_bind]
    exact ih others (by omega)

variable [Field F] [DecidableEq F] {privateInputs : List F} {pads : SumcheckProof F}

/-- What an honest prover keeps of a commitment to `values` behind its private inputs. -/
structure HonestCommitment (sha256 : Bytes → Digest) (f : SerializableField F) (raw : RawCircuit F)
    (param : BoundParam) (domain : EvaluationDomain F) (privateInputs values : List F)
    (layout : CircuitPadLayout) (committed : ZkProverCommitment F) : Prop where
  shaped : committed.pads.Shaped (geometryOf raw)
  laidOut : (padLayout (geometryOf raw) privateInputs.length : Exec String _) = .ok layout
  count : layout.layers.length = committed.pads.layers.length
  few : raw.layers.length ≤ 2 ^ 28
  agrees : Agrees layout committed.pads (privateInputs ++ values)
  size : (privateInputs ++ values).length = param.geom.nw
  honest : ∃ u m data fstar, Honest sha256 f param domain (privateInputs ++ values)
    committed.polygero ⟨committed.commitment.root⟩ u m data fstar

/-- What the commitment asks of the private inputs: the declared ones are in the subfield. -/
structure Declares (sf : Subfield F) (raw : RawCircuit F) (param : BoundParam)
    (domain : EvaluationDomain F) (privateInputs : List F) : Prop where
  within : raw.subfieldBoundary - raw.npublicInput ≤ privateInputs.length
  declared : ∀ v ∈ privateInputs.take (raw.subfieldBoundary - raw.npublicInput),
    sf.contains v = true
  table : raw.subfieldBoundary - raw.npublicInput ≠ 0 →
    ∀ j < param.geom.k + param.geom.n, sf.contains (domain.point j) = true

/-- **The commitment of an honest prover.** -/
theorem commit_honest {sf : Subfield F}
    (prepared : prepareLayout circuit.raw sha256 config domain = .ok (geometry, param))
    (exact : domain.Exact sf) (sized : Sized domain.toRangeInterpolatorFactory)
    (tabled : domain.Tabled) (engine : SubfieldEngine rng sf) (ts : StatementTranscript σ F)
    (width : privateInputs.length = circuit.raw.ninput - circuit.raw.npublicInput)
    (declares : Declares sf circuit.raw param domain privateInputs) (t : σ) (r : ρ) :
    ∃ committed r' layout values, (⟨circuit, config⟩ : ZkProver F).commit sha256 f sf ts rng
        privateInputs domain t r = .ok ((committed, geometry), receiveCommitment
          ts.toQueryTranscript param ⟨committed.commitment.root⟩ t, r') ∧
      HonestCommitment sha256 f circuit.raw param domain privateInputs values layout committed := by
  obtain ⟨some, sane, rfl, products, isProducts, made⟩ := prepareLayout_eq_ok prepared
  have setting := setting_of_tryNew made sized tabled
  obtain ⟨isNw, isProducts', known⟩ := tryNew_fields made
  obtain ⟨layout, pads, values, r', laidOut, sampled, count, rounds, laid⟩ :=
    laid_samplePads (ε := String) rng privateInputs.length r sane
  have agrees : Agrees layout pads (privateInputs ++ values) := agrees_of_laid laid
  have padCount : layout.layers.length = pads.layers.length := by rw [count, rounds.length_eq]
  obtain ⟨products', ranProducts, countProducts, hold⟩ :=
    productConstraints_hold agrees padCount laidOut
  rw [width, isProducts] at ranProducts
  obtain rfl := Except.ok.inj ranProducts
  have sizeValues : values.length =
      ((geometryOf circuit.raw).logwLayers.map fun logw => 2 * logw + 3).sum := by
    obtain ⟨_, _, drawn⟩ := bind_eq_ok.mp sampled
    obtain ⟨drawn, -⟩ := Prod.mk.inj (Except.ok.inj drawn)
    rw [← (Prod.mk.inj drawn).2, length_sampleLayers]
  have size : (privateInputs ++ values).length = param.geom.nw := by
    rw [List.length_append, width, sizeValues, isNw]
  have small := (PolygeroGeometry.Machine.bounded_of_valid setting.admitted.valid).each
  have few : circuit.raw.layers.length ≤ 2 ^ 28 := by
    have same := setting.admitted.count
    rw [isProducts', countProducts] at same
    simp only [geometryOf, List.length_map] at same
    omega
  obtain ⟨elements, counted⟩ := addElements_returns sane (show 0 +
    ((geometryOf circuit.raw).logwLayers.map fun logw => 2 * logw + 3).sum < 2 ^ 64 by omega)
  have satisfies : Satisfies sf param.toPolygeroParam domain.toRangeInterpolatorFactory
      (circuit.raw.subfieldBoundary - circuit.raw.npublicInput) (privateInputs ++ values) := by
    refine ⟨size, by rw [List.length_append]; exact declares.within.trans (Nat.le_add_right ..),
      ?_, declares.table, fun p member => ?_⟩
    · rw [List.take_append_of_le_length declares.within]
      exact declares.declared
    · obtain ⟨a, b, isA, isB, isProduct⟩ := hold p (isProducts' ▸ member)
      simp only [List.getD_eq_getElem?_getD, isA, isB, isProduct, Option.getD_some]
  obtain ⟨polygero, com, r'', committed, honest⟩ := commit_returns sha256 f setting exact engine
    known satisfies ts.toQueryTranscript t r'
  refine ⟨⟨pads, polygero, ⟨com.root⟩⟩, r'', layout, values, ?_,
    ⟨⟨rounds, elements, counted⟩, laidOut, padCount, few, agrees, size, honest⟩⟩
  simp only [ZkProver.commit, privateInputCount_of some, check_of width, prepared, sampled,
    committed, ok_bind, pure_eq_ok]

/-- **An honest sumcheck proof** has residuals that vanish. -/
theorem sumcheck_honest (ts : Transcript σ F) (inRange : raw.InRange) (wellFormed : WellFormed raw)
    {inputs : List F} (width : inputs.length = raw.ninput) (accepted : raw.Accepts inputs)
    (shaped : pads.Shaped (geometryOf raw)) (t : σ) :
    ∃ wLayers proof constraints t', evalCircuitV2 inputs raw = .ok wLayers ∧
      proveCore ts wLayers pads raw t = (.ok (proof, constraints, t') : Exec String _) ∧
      deriveConstraints ts raw proof t = .ok (constraints, t') ∧
      ∃ residuals, constraints.residuals inputs pads = .ok residuals ∧ ∀ r ∈ residuals, r = 0 := by
  obtain ⟨wLayers, evaluated⟩ : ∃ wLayers, evalCircuit .v2 inputs raw = .ok wLayers :=
    ⟨_, (decides_evalCircuit .v2 inRange width).returns accepted⟩
  obtain ⟨outputs, evaluates, zeros⟩ := evalCircuit_spec evaluated
  have begun := begin_eq ts wellFormed.logv wellFormed.noutput t
  have sizeA : (outputWeights ts raw t).1.length = raw.noutput := length_monomials _ _
  generalize outputWeights ts raw t = started at begun sizeA
  obtain ⟨a, t₀⟩ := started
  change a.length = raw.noutput at sizeA
  have claim : dot outputs a = 0 := dot_eq_zero_of_forall a zeros
  have rounds : List.Forall₂ (fun layer (p : LayerProof F) => p.rounds.length = layer.logw)
      raw.layers pads.layers := List.forall₂_map_left_iff.mp shaped.rounds
  rw [← sizeA] at evaluates
  obtain ⟨proofs, challenges, aNext, t', ran, spec⟩ := proveLayers_spec ts (List.drop_zero ..)
    (List.drop_zero ..) rounds wellFormed.layers evaluates
    (by rw [width, wellFormed.ninput, ← sizeA]) t₀
  obtain ⟨exprs, last, built, count, denotes, residuals⟩ := spec.built [] rfl
    (show (⟨0, []⟩ : PadExpression F).Denotes (padValue pads) (dot outputs a) from
      claim ▸ Affine.denotes_constant (padValue pads) 0)
  have validProof : (⟨proofs⟩ : SumcheckProof F).validate (geometryOf raw) = .ok () :=
    SumcheckProof.validate_eq_ok.mpr ⟨List.forall₂_map_left_iff.mpr spec.shape, shaped.elements⟩
  have validPads : pads.validate (geometryOf raw) = .ok () :=
    SumcheckProof.validate_eq_ok.mpr shaped
  have built' : (buildConstraints ⟨proofs⟩ challenges aNext : Exec String _) =
      .ok ⟨exprs, last, aNext⟩ := by
    rw [buildConstraints, ensure_of spec.count.symm, ok_bind, ← List.nil_append proofs, built]
    rfl
  have weighted := Blas.dot_eq (ε := String) spec.weights
  have sameShape : ¬(pads.layers.length ≠ exprs.length ∨ inputs.length ≠ aNext.length) := by
    simp [count, rounds.length_eq, spec.weights]
  refine ⟨wLayers, ⟨proofs⟩, ⟨exprs, last, aNext⟩, t', (evalCircuitV2_eq ..).trans evaluated, ?_,
    ?_, List.replicate raw.layers.length 0 ++ [0], ?_, fun r member => ?_⟩
  · rw [proveCore, validPads, mapErr_ok, ok_bind,
      ensure_of (length_inLayers evaluates), ok_bind, begun, ok_bind, ← claim]
    simp only [ran, ok_bind, built', pure_eq_ok]
  · rw [deriveConstraints, validProof, mapErr_ok, ok_bind, begun, ok_bind]
    simp only [spec.derived, ok_bind]
    rw [check_of (not_not.mpr (spec.weights.trans width)), ok_bind, built', ok_bind, pure_eq_ok]
  · rw [Constraints.residuals, check_of sameShape, ok_bind, residuals, ok_bind,
      evaluate_of_denotes denotes, ok_bind, weighted, ok_bind, dot_comm, sub_self, pure_eq_ok]
  · rcases List.mem_append.mp member with layer | input
    · exact List.eq_of_mem_replicate layer
    · exact List.mem_singleton.mp input

/-! ### The proof of an honest prover -/

omit [DecidableEq F] in
theorem length_values {layer : Nat} {constraints : List (PadExpression F)}
    {values : List F} (denote : LayersDenote pads layer constraints values) :
    values.length = constraints.length := by
  induction denote with
  | nil => rfl
  | cons _ _ _ ih => rw [List.length_cons, List.length_cons, ih]

section Prove

variable {values publicInputs : List F}
  {committed : ZkProverCommitment F}
  (kept : HonestCommitment sha256 f circuit.raw param domain privateInputs values layout committed)
include kept

/-- **The compiled constraints of an honest proof** hold of the committed values. -/
theorem compile_honest {ts : Transcript σ F} {proof : SumcheckProof F} {constraints : Constraints F}
    {t t' : σ} (derived : deriveConstraints ts circuit.raw proof t = .ok (constraints, t'))
    (width : (publicInputs ++ privateInputs).length = circuit.raw.ninput) {residuals : List F}
    (evaluated : constraints.residuals (publicInputs ++ privateInputs) committed.pads =
      .ok residuals) (zeros : ∀ r ∈ residuals, r = 0) :
    ∃ a b, compile constraints layout publicInputs = .ok (a, b) ∧ b.length < 2 ^ 63 ∧
      (∀ entry ∈ a, entry.c < b.length ∧ entry.w < param.geom.nw) ∧
      ∀ c < b.length, rowValue a (privateInputs ++ values) c + b.getD c 0 = 0 := by
  obtain ⟨challenges, weights, shaped, fits, inputs, built⟩ := deriveConstraints_eq_ok derived
  obtain ⟨found, isBuilt, layerCount, layers, isWeights, input⟩ := buildConstraints_denotes
    (ε := String) weights (shapes_of_geometry shaped.rounds kept.shaped.rounds) fits
  obtain rfl := Except.ok.inj (isBuilt.symm.trans built)
  have inputCount : publicInputs.length + privateInputs.length = found.inputWeights.length := by
    rw [isWeights, inputs, ← width, List.length_append]
  have count : found.layers.length = layout.layers.length := by
    rw [layerCount, kept.count, ← shaped.rounds.length_eq, kept.shaped.rounds.length_eq]
  obtain ⟨a, b, compiled, system⟩ := compile_system kept.agrees layers input count inputCount
    (List.prefix_append ..)
  have same : found.residuals (publicInputs ++ privateInputs) committed.pads = .ok _ :=
    residuals_eq layers input (by rw [← kept.count, count]) (by simpa using inputCount)
  obtain rfl := Except.ok.inj (same.symm.trans evaluated)
  have size : b.length < 2 ^ 63 := by
    have few := kept.few
    have total := kept.shaped.rounds.length_eq
    have each := length_values layers
    rw [system.size, List.length_append, each, List.length_singleton, count, kept.count, ← total]
    simp only [geometryOf, List.length_map]
    omega
  refine ⟨a, b, compiled, size, fun entry member => ?_, fun c inside => zeros _ ?_⟩
  · have row := system.rows entry member
    rw [← kept.size]
    exact ⟨by omega, system.columns entry member⟩
  · rw [← system.system, List.getD_eq_getElem _ _ inside]
    exact List.mem_map.mpr ⟨(b[c], c), List.mem_zipIdx_iff_getElem?.mpr (by simp [inside]), rfl⟩

variable (config) in
/-- **An honest proof is accepted**, and both parties end with the same transcript. -/
theorem prove_verifies (setting : Setting param domain) (exact : domain.Exact sf)
    (known : param.domainId = domain.domainId) (ts : StatementTranscript σ F)
    (inRange : circuit.raw.InRange) (wellFormed : WellFormed circuit.raw)
    (some : circuit.raw.npublicInput ≤ circuit.raw.ninput)
    (ofPublic : publicInputs.length = circuit.raw.npublicInput)
    (ofPrivate : privateInputs.length = circuit.raw.ninput - circuit.raw.npublicInput)
    (accepted : circuit.raw.Accepts (publicInputs ++ privateInputs)) (t : σ) :
    ∃ proof t', (⟨circuit, config⟩ : ZkProver F).prove ts publicInputs privateInputs committed
        domain t = .ok (proof, t') ∧ proof.com.root = committed.commitment.root ∧
      (⟨circuit, ⟨geometryOf circuit.raw, param.geom⟩, ⟨param, .some ⟨proof.com.root⟩⟩⟩ :
        ZkVerifier F).verify sha256 f ts publicInputs proof domain t = .ok t' := by
  have width : (publicInputs ++ privateInputs).length = circuit.raw.ninput := by
    rw [List.length_append]
    omega
  obtain ⟨t₁, stated⟩ := writeSumcheckStatement_returns ts inRange ofPublic t
  obtain ⟨wLayers, sumcheck, constraints, t₂, evaluated, proved, derived, residuals, isResiduals,
    zeros⟩ := sumcheck_honest ts.toTranscript inRange wellFormed width accepted kept.shaped t₁
  obtain ⟨statement, t₃, digested⟩ := statementDigest_returns ts t₂
  obtain ⟨a, b, compiled, few, inside, satisfied⟩ :=
    compile_honest kept derived width isResiduals zeros
  obtain ⟨u, m, data, fstar, honest⟩ := kept.honest
  obtain ⟨comProof, t', responded, verified⟩ := Polygero.prove_verifies setting exact honest
    kept.size known ts.toQueryTranscript few inside satisfied statement t₃
  have validPads : committed.pads.validate (geometryOf circuit.raw) = .ok () :=
    SumcheckProof.validate_eq_ok.mpr kept.shaped
  obtain ⟨_, _, shaped, -⟩ := deriveConstraints_eq_ok derived
  have validProof : sumcheck.validate (geometryOf circuit.raw) = .ok () :=
    SumcheckProof.validate_eq_ok.mpr shaped
  have laidOut := kept.laidOut
  rw [ofPrivate] at laidOut
  refine ⟨⟨sumcheck, committed.commitment, comProof⟩, t', ?_, rfl, ?_⟩
  · simp only [ZkProver.prove, ZkProver.proveSumcheck, check_of ofPublic, check_of ofPrivate,
      privateInputCount_of some, validPads, mapErr_ok, stated, evaluated, proved, digested, laidOut,
      compiled, responded, ok_bind, pure_eq_ok]
  · obtain ⟨_, checked, _⟩ := bind_eq_ok.mp verified
    obtain ⟨_, _, checked⟩ := bind_eq_ok.mp checked
    obtain ⟨_, _, checked⟩ := bind_eq_ok.mp checked
    obtain ⟨_, validCom, _⟩ := bind_eq_ok.mp checked
    rw [mapErr_eq_ok fun e => raise_ne_ok _ _] at validCom
    simp only [ZkVerifier.verify, ZkVerifier.validate, ZkVerifier.compileConstraints,
      check_of ofPublic, validProof, validCom, stated, derived, digested,
      privateInputCount_of some, padLayout_of_ok laidOut, compiled, verified, mapErr_ok, ok_bind,
      pure_eq_ok]

end Prove

/-- **Completeness of the v2 protocol**: what a circuit accepts can be proved, for public inputs and
a transcript that are fixed after the commitment. -/
theorem zk_complete {circuit : Circuit F} {sf : Subfield F}
    (prepared : prepareLayout circuit.raw sha256 config domain = .ok (geometry, param))
    (inRange : circuit.raw.InRange) (wellFormed : WellFormed circuit.raw)
    (exact : domain.Exact sf) (sized : Sized domain.toRangeInterpolatorFactory)
    (tabled : domain.Tabled) (engine : SubfieldEngine rng sf) (ts : StatementTranscript σ F)
    {privateInputs : List F}
    (width : privateInputs.length = circuit.raw.ninput - circuit.raw.npublicInput)
    (declares : Declares sf circuit.raw param domain privateInputs) (t : σ) (r : ρ) :
    ∃ committed t₁ r₁ verifier, (⟨circuit, config⟩ : ZkProver F).commit sha256 f sf ts rng
        privateInputs domain t r = .ok ((committed, geometry), t₁, r₁) ∧
      ZkVerifier.new sha256 circuit config domain = .ok verifier ∧
      ∀ publicInputs t', publicInputs.length = circuit.raw.npublicInput →
        circuit.raw.Accepts (publicInputs ++ privateInputs) →
        ∃ proof t₂, (⟨circuit, config⟩ : ZkProver F).prove ts publicInputs privateInputs committed
            domain t' = .ok (proof, t₂) ∧
          (verifier.receiveCommitment ts proof t).2 = t₁ ∧
          (verifier.receiveCommitment ts proof t).1.verify sha256 f ts publicInputs proof domain
            t' = .ok t₂ := by
  obtain ⟨some, _, isGeometry, products, _, made⟩ := prepareLayout_eq_ok prepared
  obtain ⟨committed, r₁, layout, values, ran, kept⟩ := commit_honest (f := f) prepared exact sized
    tabled engine ts width declares t r
  refine ⟨committed, _, r₁, ⟨circuit, geometry, PolygeroVerifier.new param⟩, ran, ?_,
    fun publicInputs t' ofPublic accepted => ?_⟩
  · simp only [ZkVerifier.new, prepared, mapErr_ok, ok_bind, pure_eq_ok]
  obtain ⟨proof, t₂, proved, root, verified⟩ := prove_verifies config kept
    (setting_of_tryNew made sized tabled) exact (tryNew_fields made).2.2 ts inRange wellFormed some
    ofPublic width accepted t'
  subst isGeometry
  refine ⟨proof, t₂, proved, ?_, verified⟩
  simp only [ZkVerifier.receiveCommitment, PolygeroVerifier.receive, PolygeroVerifier.new, root]

/-- A circuit that asserts that the square of its private input is zero. -/
def rationalCircuit : Circuit ℚ :=
  ⟨⟨2, 1, 1, 0, 0, [0], [.newUncompressed 2 1 [⟨0, 1, 1, 0⟩] [0]]⟩, default⟩

/-- A transcript of rationals that samples zeros. -/
def zeroStatement : StatementTranscript Unit ℚ :=
  ⟨zeroTranscript, fun _ t => t, fun n t => (List.replicate n 0, t),
    fun _ _ => List.length_replicate⟩

theorem zk_complete_square : ∃ (committed : ZkProverCommitment ℚ) (verifier : ZkVerifier ℚ)
    (proof : ZkProof ℚ),
    ZkVerifier.new (fun _ => default) rationalCircuit ⟨4, 1, 8, 1⟩ rationalDomain = .ok verifier ∧
      (⟨rationalCircuit, ⟨4, 1, 8, 1⟩⟩ : ZkProver ℚ).prove zeroStatement [1] [0] committed
        rationalDomain () = .ok (proof, ()) ∧
      (verifier.receiveCommitment zeroStatement proof ()).1.verify (fun _ => default)
        ⟨false, 0, fun _ => [], fun _ => .ok 0, [], fun _ => rfl⟩ zeroStatement [1] proof
        rationalDomain () = .ok () := by
  have inRange : rationalCircuit.raw.InRange := by
    refine ⟨⟨by decide, fun {terms} expands term member => ?_⟩, trivial⟩
    obtain rfl := Except.ok.inj (expands.symm.trans rfl)
    rw [List.mem_singleton.mp member]
    exact ⟨by decide, by decide, by decide⟩
  have wellFormed : WellFormed rationalCircuit.raw := by
    refine ⟨by decide, by decide, fun layer member => ?_, rfl⟩
    obtain rfl := List.mem_singleton.mp member
    exact ⟨by decide, by decide, by decide⟩
  have accepted : rationalCircuit.raw.Accepts ([1] ++ [0]) := by
    refine ⟨⟨trivial, fun term member _ => ?_⟩, fun val member => List.mem_singleton.mp member⟩
    rw [List.mem_singleton.mp member]
    exact mul_zero _
  obtain ⟨geometry, param, prepared⟩ : ∃ geometry param, prepareLayout rationalCircuit.raw
      (fun _ => default) ⟨4, 1, 8, 1⟩ rationalDomain = .ok (geometry, param) := ⟨_, _, rfl⟩
  have declares : Declares rationalSubfield rationalCircuit.raw param rationalDomain [0] :=
    ⟨Nat.zero_le _, fun _ _ => rfl, fun some => absurd rfl some⟩
  obtain ⟨committed, _, _, verifier, _, isNew, complete⟩ := zk_complete
    (f := ⟨false, 0, fun _ => [], fun _ => .ok 0, [], fun _ => rfl⟩) prepared inRange wellFormed
    rationalDomain_exact lagrange_sized rationalDomain_tabled rationalEngine zeroStatement rfl
    declares () ()
  obtain ⟨proof, _, proved, _, verified⟩ := complete [1] () rfl accepted
  exact ⟨committed, verifier, proof, isNew, proved, verified⟩

end Longfellow.ZkV2
