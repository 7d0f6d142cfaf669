/-
**The constraint compiler of the v1 protocol** (`runtime/zk-v1/src/constraint_compiler.rs`).

The relations of a sumcheck proof are flattened to a linear system on the committed values, one
equation for each layer and one for the inputs: a pad is found at its position in the layout, and the
product of the two claim pads of a layer is committed as a value of its own.

* `system_eq_residuals` — **each row of the system is the residual of the numeric check on the
  unmasked proof, and the pads stand in bijection with the places behind the private inputs.**
-/

import Longfellow.Ligero.Param
import Longfellow.SumcheckV1.Completeness
import Longfellow.SumcheckV1.Pads
import Longfellow.SumcheckV1.Residuals

namespace Longfellow.ZkV1

open Lib SumcheckV1

variable {σ ρ E : Type} [CommRing E]

/-- The entries of an expression in equation `c`, each pad at its position. -/
def appendPadTerms (c : Nat) (expression : PadExpression E) (pads : CircuitPadLayout) :
    Exec String (List (LigeroLinearConstraint E)) :=
  place "sumcheck relation pad shape mismatch" (fun pad => pads.position pad.slot) c expression

/-- The equations of the layers from `c` on. -/
def compileLayers (pads : CircuitPadLayout) : Nat → List (LayerRelation E) →
    Exec String (List (LigeroLinearConstraint E) × List E)
  | _, [] => pure ([], [])
  | c, relation :: relations => do
    let terms ← appendPadTerms c relation.linear pads
    let layer ← getAt pads.layers c
    let (a, b) ← compileLayers pads (c + 1) relations
    pure ((terms ++ [⟨c, layer.claims.2.2, relation.productCoefficient⟩]) ++ a,
      [relation.linear.constant] ++ b)

/-- One equation for each layer, then the equation of the inputs. -/
def compile (relations : VerificationRelations E) (pads : CircuitPadLayout)
    (publicInputs : List E) : Exec String (List (LigeroLinearConstraint E) × List E) := do
  check (¬relations.layers.length ≠ pads.layers.length)
    "sumcheck relation pad layer count mismatch"
  check (¬publicInputs.length > relations.input.weights.length)
    "sumcheck relation public input length mismatch"
  let (a, b) ← compileLayers pads 0 relations.layers
  let input := relations.input
  let c := b.length
  let known ← Blas.dot (input.weights.take publicInputs.length) publicInputs
  let weights := (input.weights.drop publicInputs.length).zipIdx.map fun (weight, w) =>
    (⟨c, w, weight⟩ : LigeroLinearConstraint E)
  let terms ← appendPadTerms c input.linear pads
  pure (a ++ (weights ++ terms), b ++ [input.linear.constant + known])

/-- The products of the claim pads of the layers. -/
def productConstraints {ε : Type} (startPad : Nat) (geometry : SumcheckProofGeometry) :
    Exec ε (List LigeroQuadraticConstraint) := do
  let claims ← claimIndices geometry.logwLayers startPad
  pure (claims.map fun (x, y, z) => ⟨x, y, z⟩)

/-! ### The rows -/

variable {pads : SumcheckProof E} {layout : CircuitPadLayout} {x : List E}

/-- The committed values stand where the layout says. -/
def Agrees (layout : CircuitPadLayout) (pads : SumcheckProof E) (x : List E) : Prop :=
  ∀ {slot v}, pads.slotValue slot = some v → ∃ w, layout.position slot = some w ∧ x[w]? = some v

section

variable (agrees : Agrees layout pads x)
include agrees

theorem appendPadTerms_of_denotes (c : Nat) {expression : PadExpression E} {value : E}
    (denotes : expression.Denotes (padValue pads) value) :
    ∃ entries, appendPadTerms c expression layout = .ok entries ∧
      RowIs entries expression.constant x c value := by
  refine place_of_denotes c ?_ denotes
  intro pad v valued
  rw [padValue_eq_slotValue] at valued
  exact agrees valued

theorem productOf_agrees {c : Nat} {pad : LayerProof E} (isLayer : pads.layers[c]? = some pad) :
    ∃ layer, layout.layers[c]? = some layer ∧
      x[layer.claims.2.2]? = some (pad.claims.1 * pad.claims.2) := by
  have isProduct : pads.slotValue (c, .product) = some (pad.claims.1 * pad.claims.2) := by
    simp [SumcheckProof.slotValue, isLayer, LayerProof.slotValue]
  obtain ⟨w, located, content⟩ := agrees isProduct
  obtain ⟨layer, isLayout, product⟩ := Option.bind_eq_some_iff.mp located
  obtain rfl : layer.claims.2.2 = w := Option.some.inj product
  exact ⟨layer, isLayout, content⟩

/-- **The equations of the layers.** -/
theorem compileLayers_system {c : Nat} {relations : List (LayerRelation E)} {values : List E}
    (denote : LayersDenote pads c relations values) :
    ∃ a b, compileLayers layout c relations = .ok (a, b) ∧ SystemIs a b x c values := by
  induction denote with
  | nil c => exact ⟨[], [], rfl, systemIs_nil x c⟩
  | @cons c relation pad value relations values isLayer here _ ih =>
    obtain ⟨a, b, ran, later⟩ := ih
    obtain ⟨entries, placed, row⟩ := appendPadTerms_of_denotes agrees c here
    obtain ⟨layer, isLayout, content⟩ := productOf_agrees agrees isLayer
    have full := row.append (rowIs_singleton content c relation.productCoefficient)
    rw [add_zero, sub_add_cancel] at full
    refine ⟨_, _, ?_, full.systemIs.append later rfl⟩
    rw [compileLayers, placed, ok_bind, getAt_eq_ok.mpr isLayout, ok_bind, ran, ok_bind]
    rfl

/-- **The whole system**: the residuals of the layers, then the residual of the inputs. -/
theorem compile_system {relations : VerificationRelations E}
    {values publicInputs privateInputs : List E} {value : E}
    (layers : LayersDenote pads 0 relations.layers values)
    (input : relations.input.linear.Denotes (padValue pads) value)
    (count : relations.layers.length = layout.layers.length)
    (sizes : publicInputs.length + privateInputs.length = relations.input.weights.length)
    (committed : privateInputs <+: x) :
    ∃ a b, compile relations layout publicInputs = .ok (a, b) ∧ SystemIs a b x 0 (values ++
      [value + dot relations.input.weights (publicInputs ++ privateInputs)]) := by
  obtain ⟨a, b, ran, system⟩ := compileLayers_system agrees layers
  obtain ⟨entries, placed, row⟩ := appendPadTerms_of_denotes agrees b.length input
  obtain ⟨more, rfl⟩ := committed
  have known : (relations.input.weights.take publicInputs.length).length =
      publicInputs.length := by
    rw [List.length_take]
    omega
  have unknown : (relations.input.weights.drop publicInputs.length).length ≤
      (privateInputs ++ more).length := by
    rw [List.length_drop, List.length_append]
    omega
  have dense := rowIs_dense id b.length
    (dot (relations.input.weights.take publicInputs.length) publicInputs) unknown
  rw [List.map_id, add_comm (dot _ _), ← dot_split more sizes] at dense
  have last := dense.append row
  rw [add_comm _ relations.input.linear.constant, add_comm _ value] at last
  refine ⟨_, _, ?_, system.append last.systemIs (Nat.zero_add _).symm⟩
  have counts : ¬relations.layers.length ≠ layout.layers.length := not_not.mpr count
  have short : ¬publicInputs.length > relations.input.weights.length := by omega
  simp only [compile, check_of counts, check_of short, ok_bind, ran, Blas.dot_eq known, placed,
    pure_eq_ok, id]

end

/-! ### Against the numeric check -/

theorem agrees_of_laid {slots : List (Nat × LayerSlot)} {privateInputs committed : List E}
    (laid : Laid slots layout.position pads.slotValue privateInputs.length committed) :
    Agrees layout pads (privateInputs ++ committed) := laid.agrees_behind

theorem shapes_of_sample (rng : RandomEngine ρ E) (r : ρ) {raw : RawCircuit E}
    {proof : SumcheckProof E} (shaped : proof.Shaped (.fromCircuit raw)) :
    List.Forall₂ (fun layer (pad : LayerProof E) => pad.Rounds layer.hp.1.length) proof.layers
      (sample rng (.fromCircuit raw) r).1.1.layers := by
  have sampled := rounds_sample rng (SumcheckProofGeometry.fromCircuit raw).logwLayers r
  refine List.forall₂_iff_get.mpr ⟨?_, fun i proofBound padBound => ?_⟩
  · exact shaped.rounds.length_eq.symm.trans sampled.length_eq
  · have bound := shaped.rounds.length_eq ▸ proofBound
    have ofProof := shaped.rounds.get bound proofBound
    have ofPad := sampled.get bound padBound
    rw [ofProof.1]
    exact ofPad

variable [DecidableEq E]

/-- **Each row of the system is the residual of the numeric check on the unmasked proof**, for every
proof that the verifier takes, every tape the pads are sampled from and every transcript; the slots
of the pads are in bijection with the places behind the private inputs, and hold the pads. -/
theorem system_eq_residuals (ts : Transcript σ E) (f : InterpolationField E)
    (rng : RandomEngine ρ E) (r : ρ) (raw : RawCircuit E) (proof : SumcheckProof E)
    (publicInputs privateInputs : List E) {t t' : σ} {data : VerifierData E}
    (derived : deriveVerifierData ts f raw proof t = .ok (data, t'))
    (sizes : publicInputs.length + privateInputs.length = raw.ninput) :
    let pads := (sample rng (.fromCircuit raw) r).1.1
    let witness := privateInputs ++ (sample rng (.fromCircuit raw) r).1.2
    let numeric := residuals (proof.unmask pads) data (publicInputs ++ privateInputs)
    ∃ relations layout a b, symbolicVerify proof data = .ok relations ∧
      (padLayout (.fromCircuit raw) privateInputs.length : Exec String _) = .ok layout ∧
      compile relations layout publicInputs = .ok (a, b) ∧
      systemValue a b witness = numeric ∧
      relations.evaluate (publicInputs ++ privateInputs) pads = .ok numeric ∧
      (∀ entry ∈ a, entry.c < b.length ∧ entry.w < witness.length) ∧
      (∀ slot i, layout.position slot = some i →
        privateInputs.length ≤ i ∧ i < witness.length ∧ witness[i]? = pads.slotValue slot) ∧
      (∀ i, privateInputs.length ≤ i → i < witness.length →
        ∃! slot, layout.position slot = some i) := by
  intro pads witness numeric
  obtain ⟨shaped, fits, weights⟩ := deriveVerifierData_shape derived
  have shapes := shapes_of_sample rng r shaped
  have sane : ∀ logw ∈ (SumcheckProofGeometry.fromCircuit raw).logwLayers, SaneLogw logw := by
    obtain ⟨count, counted⟩ := shaped.elements
    exact sane_of_foldlM counted
  obtain ⟨relations, verified, count, layers, isWeights, input⟩ :=
    symbolicVerify_denotes shapes fits
  obtain ⟨layout, laidOut, layoutCount, laid⟩ :=
    laid_sample (ε := String) rng privateInputs.length r sane
  have layerCount : relations.layers.length = layout.layers.length := by
    rw [count, layoutCount, shaped.rounds.length_eq]
  have inputCount : publicInputs.length + privateInputs.length = relations.input.weights.length := by
    rw [isWeights, weights, sizes]
  obtain ⟨a, b, compiled, system⟩ := compile_system (agrees_of_laid laid) layers input layerCount
    inputCount (List.prefix_append privateInputs _)
  have same : residuals (proof.unmask pads) data (publicInputs ++ privateInputs) =
      (numericResiduals (0, 0) (proof.unmask pads).layers data.layers).1 ++
        [-((numericResiduals (0, 0) (proof.unmask pads).layers data.layers).2.1 + data.inputAlpha *
          (numericResiduals (0, 0) (proof.unmask pads).layers data.layers).2.2) +
          dot relations.input.weights (publicInputs ++ privateInputs)] := by
    rw [residuals, isWeights, neg_add_eq_sub]
  have padCount : pads.layers.length = relations.layers.length :=
    shapes.length_eq.symm.trans count.symm
  refine ⟨relations, layout, a, b, verified, laidOut, compiled, system.system.trans same.symm, ?_,
    ?_, ?_, ?_⟩
  · rw [evaluate_eq_residuals layers input padCount (by simpa using inputCount)]
    exact congrArg Except.ok same.symm
  · intro entry member
    have := system.rows entry member
    exact ⟨by omega, system.columns entry member⟩
  · intro slot i located
    obtain ⟨low, high, content⟩ := laid.value_at located
    refine ⟨low, by simpa [witness] using high, ?_⟩
    rw [List.getElem?_append_right low, content]
  · intro i low high
    exact laid.position_bijective low (by simpa [witness] using high)

/-- A tape that counts. -/
def countingEngine : RandomEngine Nat (ZMod 7) where
  bytes len r := (List.replicate len (UInt8.ofNat r), r + 1)
  eltField r := ((r : ZMod 7), r + 1)
  eltSubfield r := ((r : ZMod 7), r + 1)

/-- A proof that is not of an honest prover, on a circuit with one private input. -/
theorem system_eq_residuals_square :
    let proof : SumcheckProof (ZMod 7) := ⟨[⟨([⟨(3, 4)⟩], [⟨(5, 6)⟩]), (1, 2)⟩]⟩
    let pads := (sample countingEngine (.fromCircuit (squareCircuit 1)) 2).1
    ∃ data t', deriveVerifierData countingTranscript smallField (squareCircuit 1) proof 0 =
        .ok (data, t') ∧
      ∃ relations layout a b, symbolicVerify proof data = .ok relations ∧
        (padLayout (.fromCircuit (squareCircuit 1)) 1 : Exec String _) = .ok layout ∧
        compile relations layout [1] = .ok (a, b) ∧
        systemValue a b ([5] ++ pads.2) = residuals (proof.unmask pads.1) data ([1] ++ [5]) := by
  intro proof pads
  obtain ⟨data, t', derived⟩ : ∃ data t', deriveVerifierData countingTranscript smallField
      (squareCircuit 1) proof 0 = .ok (data, t') := ⟨_, _, rfl⟩
  obtain ⟨relations, layout, a, b, verified, laidOut, compiled, system, _⟩ :=
    system_eq_residuals countingTranscript smallField countingEngine 2 (squareCircuit 1) proof [1] [5]
      derived rfl
  exact ⟨data, t', derived, relations, layout, a, b, verified, laidOut, compiled, system⟩

end Longfellow.ZkV1
