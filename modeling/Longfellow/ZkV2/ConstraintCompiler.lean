/-
**The constraint compiler of the v2 protocol** (`runtime/zk-v2/src/constraint_compiler.rs`).

The constraints of a sumcheck proof are flattened to a linear system on the committed values, one
equation for each layer and one for the inputs. A layer leaves the product of its two claim pads
implicit, and the committed product enters its equation with coefficient `-1`.

* `satisfied_iff_residuals` — **the compiled constraints are satisfied exactly when every residual
  is zero on the unmasked proof, row by row**.
-/

import Longfellow.Proto.Polygero
import Longfellow.SumcheckV2.Pads
import Longfellow.SumcheckV2.Soundness

namespace Longfellow.ZkV2

open Lib SumcheckV2

variable {σ ρ ε E : Type} [CommRing E]

/-- The entries of an expression in equation `c`, each pad at its coordinate. -/
def appendPadTerms (c : Nat) (expression : PadExpression E) (pads : CircuitPadLayout) :
    Exec String (List (PolygeroLinearTerm E)) :=
  place "sumcheck constraint pad shape mismatch" (fun pad => pads.position pad.slot) c expression

/-- The equations of the layers from `c` on. -/
def compileLayers (pads : CircuitPadLayout) : Nat → List (PadExpression E) →
    Exec String (List (PolygeroLinearTerm E) × List E)
  | _, [] => pure ([], [])
  | c, constraint :: constraints => do
    let terms ← appendPadTerms c constraint pads
    let layer ← getAt pads.layers c
    let (a, b) ← compileLayers pads (c + 1) constraints
    pure ((terms ++ [⟨c, layer.claims.2.2, -1⟩]) ++ a, [constraint.constant] ++ b)

/-- The equation of the inputs: the claim minus the weighted inputs, of which the public ones are
known. -/
def appendInputConstraint (c : Nat) (constraints : Constraints E) (pads : CircuitPadLayout)
    (publicInputs : List E) : Exec String (List (PolygeroLinearTerm E) × E) := do
  let claim := constraints.inputClaim
  let weights := constraints.inputWeights
  let publicSum ← Blas.dot (weights.take publicInputs.length) publicInputs
  let known := claim.constant - publicSum
  let inputs := (weights.drop publicInputs.length).zipIdx.map fun (weight, w) =>
    (⟨c, w, -weight⟩ : PolygeroLinearTerm E)
  let terms ← appendPadTerms c claim pads
  pure (inputs ++ terms, known)

/-- The layer count and the public inputs fit the layout. -/
def validate (constraints : Constraints E) (pads : CircuitPadLayout) (npublic : Nat) :
    Exec String Unit := do
  check (¬constraints.layers.length ≠ pads.layers.length)
    "sumcheck constraint pad layer count mismatch"
  check (¬npublic > constraints.inputWeights.length)
    "sumcheck constraint public input length mismatch"

/-- One equation for each layer, then the equation of the inputs. -/
def compile (constraints : Constraints E) (pads : CircuitPadLayout) (publicInputs : List E) :
    Exec String (List (PolygeroLinearTerm E) × List E) := do
  validate constraints pads publicInputs.length
  let (a, b) ← compileLayers pads 0 constraints.layers
  let (inputs, known) ← appendInputConstraint b.length constraints pads publicInputs
  pure (a ++ inputs, b ++ [known])

/-- The products of the claim pads of the layers. -/
def productConstraints (startPad : Nat) (geometry : SumcheckProofGeometry) :
    Exec ε (List PolygeroProductConstraint) := do
  let claims ← claimIndices geometry.logwLayers startPad
  pure (claims.map fun (x, y, z) => ⟨x, y, z⟩)

/-! ### The rows -/

variable {pads : SumcheckProof E} {layout : CircuitPadLayout} {x : List E}

/-- The committed values stand where the layout says. -/
def Agrees (layout : CircuitPadLayout) (pads : SumcheckProof E) (x : List E) : Prop :=
  ∀ {slot v}, pads.slotValue slot = some v → ∃ w, layout.position slot = some w ∧ x[w]? = some v

variable {value : E}

theorem appendPadTerms_of_denotes (agrees : Agrees layout pads x) (c : Nat)
    {expression : PadExpression E} (denotes : expression.Denotes (padValue pads) value) :
    ∃ entries, appendPadTerms c expression layout = .ok entries ∧
      RowIs entries expression.constant x c value := by
  refine place_of_denotes c ?_ denotes
  intro pad v valued
  rw [padValue_eq_slotValue] at valued
  exact agrees valued

theorem claims_agree (agrees : Agrees layout pads x) {c : Nat} {pad : LayerProof E}
    (isLayer : pads.layers[c]? = some pad) :
    ∃ layer, layout.layers[c]? = some layer ∧ x[layer.claims.1]? = some pad.claims.1 ∧
      x[layer.claims.2.1]? = some pad.claims.2 ∧
      x[layer.claims.2.2]? = some (pad.claims.1 * pad.claims.2) := by
  have valued (slot : LayerSlot) : pads.slotValue (c, slot) = pad.slotValue slot := by
    simp [SumcheckProof.slotValue, isLayer]
  obtain ⟨wA, locatedA, contentA⟩ := agrees (valued (.claim 0))
  obtain ⟨wB, locatedB, contentB⟩ := agrees (valued (.claim 1))
  obtain ⟨w, located, content⟩ := agrees (valued .product)
  obtain ⟨layer, isLayout, product⟩ := Option.bind_eq_some_iff.mp located
  simp only [CircuitPadLayout.position, isLayout, Option.bind_some] at locatedA locatedB
  obtain rfl : layer.claims.2.2 = w := Option.some.inj product
  obtain rfl : layer.claims.1 = wA := Option.some.inj locatedA
  obtain rfl : layer.claims.2.1 = wB := Option.some.inj locatedB
  exact ⟨layer, isLayout, contentA, contentB, content⟩

/-- **The equations of the layers.** -/
theorem compileLayers_system (agrees : Agrees layout pads x) {c : Nat}
    {constraints : List (PadExpression E)} {values : List E}
    (denote : LayersDenote pads c constraints values) :
    ∃ a b, compileLayers layout c constraints = .ok (a, b) ∧ SystemIs a b x c values := by
  induction denote with
  | nil c => exact ⟨[], [], rfl, systemIs_nil x c⟩
  | @cons c constraint pad value constraints values isLayer here _ ih =>
    obtain ⟨a, b, ran, later⟩ := ih
    obtain ⟨entries, placed, row⟩ := appendPadTerms_of_denotes agrees c here
    obtain ⟨layer, isLayout, _, _, content⟩ := claims_agree agrees isLayer
    have full := row.append (rowIs_singleton content c (-1))
    rw [add_zero, neg_one_mul, add_neg_cancel_right] at full
    refine ⟨_, _, ?_, full.systemIs.append later rfl⟩
    rw [compileLayers, placed, ok_bind, getAt_eq_ok.mpr isLayout, ok_bind, ran, ok_bind]
    rfl

variable {constraints : Constraints E} {publicInputs privateInputs : List E}

/-- **The equation of the inputs.** -/
theorem appendInputConstraint_row (agrees : Agrees layout pads x) (c : Nat)
    (input : constraints.inputClaim.Denotes (padValue pads) value)
    (sizes : publicInputs.length + privateInputs.length = constraints.inputWeights.length)
    (committed : privateInputs <+: x) :
    ∃ entries constant, appendInputConstraint c constraints layout publicInputs =
        .ok (entries, constant) ∧
      RowIs entries constant x c
        (value - dot constraints.inputWeights (publicInputs ++ privateInputs)) := by
  obtain ⟨entries, placed, row⟩ := appendPadTerms_of_denotes agrees c input
  obtain ⟨more, rfl⟩ := committed
  have known : (constraints.inputWeights.take publicInputs.length).length =
      publicInputs.length := by
    rw [List.length_take]
    omega
  have unknown : (constraints.inputWeights.drop publicInputs.length).length ≤
      (privateInputs ++ more).length := by
    rw [List.length_drop, List.length_append]
    omega
  have dense := rowIs_dense Neg.neg c
    (-dot (constraints.inputWeights.take publicInputs.length) publicInputs) unknown
  rw [dot_map_neg, ← neg_add, add_comm (dot _ _), ← dot_split more sizes] at dense
  have last := dense.append row
  rw [neg_add_eq_sub, neg_add_eq_sub] at last
  refine ⟨_, _, ?_, last⟩
  simp only [appendInputConstraint, Blas.dot_eq known, ok_bind, placed, pure_eq_ok]

/-- **The whole system**: the residuals of the layers, then the residual of the inputs. -/
theorem compile_system (agrees : Agrees layout pads x) {values : List E}
    (layers : LayersDenote pads 0 constraints.layers values)
    (input : constraints.inputClaim.Denotes (padValue pads) value)
    (count : constraints.layers.length = layout.layers.length)
    (sizes : publicInputs.length + privateInputs.length = constraints.inputWeights.length)
    (committed : privateInputs <+: x) :
    ∃ a b, compile constraints layout publicInputs = .ok (a, b) ∧ SystemIs a b x 0 (values ++
      [value - dot constraints.inputWeights (publicInputs ++ privateInputs)]) := by
  obtain ⟨a, b, ran, system⟩ := compileLayers_system agrees layers
  obtain ⟨entries, constant, placed, row⟩ := appendInputConstraint_row agrees b.length input sizes
    committed
  refine ⟨_, _, ?_, system.append row.systemIs (Nat.zero_add _).symm⟩
  have counts : ¬constraints.layers.length ≠ layout.layers.length := not_not.mpr count
  have short : ¬publicInputs.length > constraints.inputWeights.length := by omega
  simp only [compile, validate, check_of counts, check_of short, ok_bind, ran, placed, pure_eq_ok]

/-! ### The products -/

omit [CommRing E] in
theorem length_claimIndices {logws : List Nat} {next : Nat} {claims : List (Nat × Nat × Nat)}
    (ran : (claimIndices logws next : Exec ε _) = .ok claims) : claims.length = logws.length := by
  induction logws generalizing next claims with
  | nil =>
    obtain rfl := Except.ok.inj ran
    rfl
  | cons logw logws ih =>
    obtain ⟨_, _, ran⟩ := bind_eq_ok.mp ran
    obtain ⟨count, _, ran⟩ := bind_eq_ok.mp ran
    obtain ⟨rest, later, ran⟩ := bind_eq_ok.mp ran
    obtain rfl := Except.ok.inj ran
    rw [List.length_cons, List.length_cons, ih later]

variable {geometry : SumcheckProofGeometry}

theorem productConstraints_of_padLayout {startPad : Nat}
    (laidOut : (padLayout geometry startPad : Exec ε _) = .ok layout) :
    (productConstraints startPad geometry : Exec ε _) =
      .ok (layout.layers.map fun layer =>
        ⟨layer.claims.1, layer.claims.2.1, layer.claims.2.2⟩) := by
  obtain ⟨claims, ran, laidOut⟩ := bind_eq_ok.mp laidOut
  obtain rfl := Except.ok.inj laidOut
  rw [productConstraints, ran, ok_bind, pure_eq_ok]
  congr 1
  have size := length_claimIndices ran
  refine List.ext_getElem (by simp [size]) fun i bound bound' => ?_
  simp [layerLayout]

/-- **The committed products are products.** -/
theorem productConstraints_hold (agrees : Agrees layout pads x)
    (count : layout.layers.length = pads.layers.length) {startPad : Nat}
    (laidOut : (padLayout geometry startPad : Exec ε _) = .ok layout) :
    ∃ products, (productConstraints startPad geometry : Exec ε _) = .ok products ∧
      products.length = geometry.logwLayers.length ∧ ∀ q ∈ products, q.Holds x := by
  refine ⟨_, productConstraints_of_padLayout laidOut, ?_, fun q member => ?_⟩
  · obtain ⟨claims, ran, laidOut⟩ := bind_eq_ok.mp laidOut
    obtain rfl := Except.ok.inj laidOut
    simp [length_claimIndices ran]
  · obtain ⟨layer, isMember, rfl⟩ := List.mem_map.mp member
    obtain ⟨c, bound, rfl⟩ := List.getElem_of_mem isMember
    have isLayer := List.getElem?_eq_getElem (count ▸ bound)
    obtain ⟨layer, isLayout, first, second, product⟩ := claims_agree agrees isLayer
    obtain ⟨_, rfl⟩ := List.getElem?_eq_some_iff.mp isLayout
    exact ⟨_, _, first, second, product⟩

/-! ### Any committed values -/

/-- The pads that stand at their positions in some values. -/
def readPads (layout : CircuitPadLayout) (x : List E) : SumcheckProof E :=
  ⟨layout.layers.map fun layer =>
    ⟨layer.rounds.map fun p => ⟨(x.getD p.1 0, x.getD p.2 0)⟩,
      (x.getD layer.claims.1 0, x.getD layer.claims.2.1 0)⟩⟩

omit [CommRing E] in
theorem exists_of_slotOf_getD {d v : E} {p : Nat × Nat} (first : p.1 < x.length)
    (second : p.2 < x.length) {j : Nat} (found : slotOf (x.getD p.1 d, x.getD p.2 d) j = some v) :
    ∃ w, slotOf p j = some w ∧ x[w]? = some v := by
  rw [List.getD_eq_getElem _ _ first, List.getD_eq_getElem _ _ second] at found
  match j with
  | 0 => exact ⟨p.1, rfl, (List.getElem?_eq_getElem first).trans found⟩
  | 1 => exact ⟨p.2, rfl, (List.getElem?_eq_getElem second).trans found⟩
  | j + 2 => exact absurd found (by simp [slotOf])

theorem padLayout_layers {base : Nat} (laidOut : (padLayout geometry base : Exec ε _) = .ok layout) :
    List.Forall₂ (fun logw (layer : LayerPadLayout) => layer.rounds.length = logw ∧
      ∀ p ∈ layer.rounds, p.1 < layer.claims.1 ∧ p.2 < layer.claims.1)
      geometry.logwLayers layout.layers := by
  obtain ⟨claims, ran, made⟩ := bind_eq_ok.mp laidOut
  obtain rfl := Except.ok.inj made
  clear laidOut made
  generalize geometry.logwLayers = logws at ran
  induction logws generalizing base claims with
  | nil => exact .nil
  | cons logw logws ih =>
    obtain ⟨_, _, ran⟩ := bind_eq_ok.mp ran
    obtain ⟨count, counted, ran⟩ := bind_eq_ok.mp ran
    obtain ⟨_, _, counted⟩ := bind_eq_ok.mp counted
    obtain rfl := Except.ok.inj counted
    obtain ⟨rest, later, ran⟩ := bind_eq_ok.mp ran
    obtain rfl := Except.ok.inj ran
    refine .cons ⟨by simp [layerLayout], fun p member => ?_⟩ (ih rest later)
    obtain ⟨round, inside, rfl⟩ := List.mem_map.mp member
    have small := List.mem_range.mp inside
    dsimp only [layerLayout]
    omega

/-- **Values that satisfy the product constraints hold pads**, with the products of the claim pads. -/
theorem agrees_readPads {base : Nat} (laidOut : (padLayout geometry base : Exec ε _) = .ok layout)
    {products : List PolygeroProductConstraint}
    (isProducts : (productConstraints base geometry : Exec ε _) = .ok products)
    (hold : ∀ q ∈ products, q.Holds x) : Agrees layout (readPads layout x) x := by
  rintro ⟨c, slot⟩ v valued
  obtain ⟨pad, isPad, valued⟩ := Option.bind_eq_some_iff.mp valued
  rw [readPads, List.getElem?_map] at isPad
  obtain ⟨layer, isLayer, rfl⟩ := Option.map_eq_some_iff.mp isPad
  rw [productConstraints_of_padLayout laidOut] at isProducts
  obtain rfl := Except.ok.inj isProducts
  obtain ⟨a, b, isA, isB, isProduct⟩ := hold _ (List.mem_map_of_mem (List.mem_of_getElem? isLayer))
  obtain ⟨inA, rfl⟩ := List.getElem?_eq_some_iff.mp isA
  obtain ⟨inB, rfl⟩ := List.getElem?_eq_some_iff.mp isB
  simp only [CircuitPadLayout.position, isLayer, Option.bind_some]
  cases slot with
  | round i j =>
    obtain ⟨poly, isPoly, slotted⟩ := Option.bind_eq_some_iff.mp valued
    rw [List.getElem?_map] at isPoly
    obtain ⟨p, isRound, rfl⟩ := Option.map_eq_some_iff.mp isPoly
    obtain ⟨inC, rfl⟩ := List.getElem?_eq_some_iff.mp isLayer
    have layers := padLayout_layers laidOut
    obtain ⟨first, second⟩ := (layers.get (layers.length_eq ▸ inC) inC).2 p
      (List.mem_of_getElem? isRound)
    rw [LayerPadLayout.position, isRound]
    exact exists_of_slotOf_getD (first.trans inA) (second.trans inA) slotted
  | claim j => exact exists_of_slotOf_getD inA inB valued
  | product =>
    obtain rfl := Option.some.inj valued
    exact ⟨_, rfl, by simpa [inA, inB] using isProduct⟩

/-! ### Against the residuals -/

theorem agrees_of_laid {slots : List (Nat × LayerSlot)} {committed : List E}
    (laid : Laid slots layout.position pads.slotValue privateInputs.length committed) :
    Agrees layout pads (privateInputs ++ committed) := laid.agrees_behind

variable [DecidableEq E]

/-- **The compiled constraints are satisfied exactly when every residual is zero**, for every proof
that the verifier takes, every tape the pads are sampled from and every transcript: each row of the
system is the residual of the constraints on the inputs and the pads, which is the residual of the
numeric check on the unmasked proof. -/
theorem satisfied_iff_residuals (ts : Transcript σ E) (rng : RandomEngine ρ E) (r : ρ)
    (raw : RawCircuit E) (proof : SumcheckProof E) (publicInputs privateInputs : List E) {t t' : σ}
    {constraints : Constraints E}
    (derived : deriveConstraints ts raw proof t = .ok (constraints, t'))
    (sizes : publicInputs.length + privateInputs.length = raw.ninput) :
    ∃ pads committed r' layout a b products challenges,
      samplePads rng (geometryOf raw) r = (.ok ((pads, committed), r') : Exec String _) ∧
      (padLayout (geometryOf raw) privateInputs.length : Exec String _) = .ok layout ∧
      compile constraints layout publicInputs = .ok (a, b) ∧
      (productConstraints privateInputs.length (geometryOf raw) : Exec String _) = .ok products ∧
      buildConstraints proof challenges constraints.inputWeights =
        (.ok constraints : Exec String _) ∧
      let witness := privateInputs ++ committed
      let numeric := residualsOf (proof.unmask pads) challenges constraints.inputWeights
        (publicInputs ++ privateInputs)
      constraints.residuals (publicInputs ++ privateInputs) pads = .ok numeric ∧
      systemValue a b witness = numeric ∧
      (((∀ v ∈ systemValue a b witness, v = 0) ∧ ∀ q ∈ products, q.Holds witness) ↔
        ∀ v ∈ numeric, v = 0) ∧
      (∀ entry ∈ a, entry.c < b.length ∧ entry.w < witness.length) := by
  obtain ⟨challenges, weights, shaped, fits, width, built⟩ := deriveConstraints_eq_ok derived
  obtain ⟨layout, pads, committed, r', laidOut, sampled, layoutCount, rounds, laid⟩ :=
    laid_samplePads (ε := String) rng privateInputs.length r shaped.sane
  have agrees : Agrees layout pads (privateInputs ++ committed) := agrees_of_laid laid
  have shapes := shapes_of_geometry shaped.rounds rounds
  obtain ⟨found, isBuilt, count, layers, isWeights, input⟩ :=
    buildConstraints_denotes (ε := String) weights shapes fits
  obtain rfl : found = constraints := Except.ok.inj (isBuilt.symm.trans built)
  have layerCount : found.layers.length = layout.layers.length := by
    rw [count, layoutCount, shaped.rounds.length_eq]
  have padLayers : layout.layers.length = pads.layers.length := by
    rw [layoutCount, rounds.length_eq]
  have inputCount : publicInputs.length + privateInputs.length = found.inputWeights.length := by
    rw [isWeights, width, sizes]
  obtain ⟨a, b, compiled, system⟩ := compile_system agrees layers input layerCount inputCount
    (List.prefix_append privateInputs committed)
  obtain ⟨products, isProducts, _, hold⟩ := productConstraints_hold agrees padLayers laidOut
  have value : systemValue a b (privateInputs ++ committed) =
      residualsOf (proof.unmask pads) challenges found.inputWeights
        (publicInputs ++ privateInputs) := system.system
  refine ⟨pads, committed, r', layout, a, b, products, challenges, sampled, laidOut, compiled,
    isProducts, by rw [isWeights, built], ?_, value, ?_, ?_⟩
  · exact residuals_eq layers input (padLayers ▸ layerCount.symm) (by simpa using inputCount)
  · rw [value]
    exact ⟨fun satisfied => satisfied.1, fun zeros => ⟨zeros, hold⟩⟩
  · intro entry member
    have row := system.rows entry member
    exact ⟨by omega, system.columns entry member⟩

/-- A tape that counts. -/
def countingEngine : RandomEngine Nat (ZMod 7) where
  bytes len r := (List.replicate len (UInt8.ofNat r), r + 1)
  eltField r := ((r : ZMod 7), r + 1)
  eltSubfield r := ((r : ZMod 7), r + 1)

/-- A proof that is not of an honest prover, on a circuit with one private input. -/
theorem satisfied_iff_residuals_square :
    let proof : SumcheckProof (ZMod 7) := ⟨[⟨[⟨(3, 4)⟩], (1, 2)⟩]⟩
    ∃ constraints t', deriveConstraints countingTranscript (squareCircuit 1) proof 0 =
        .ok (constraints, t') ∧
      ∃ pads committed r' layout a b, samplePads countingEngine (geometryOf (squareCircuit 1)) 2 =
          (.ok ((pads, committed), r') : Exec String _) ∧
        (padLayout (geometryOf (squareCircuit 1)) 1 : Exec String _) = .ok layout ∧
        compile constraints layout [1] = .ok (a, b) ∧
        constraints.residuals ([1] ++ [5]) pads = .ok (systemValue a b ([5] ++ committed)) := by
  intro proof
  obtain ⟨constraints, t', derived⟩ : ∃ constraints t', deriveConstraints countingTranscript
      (squareCircuit 1) proof 0 = .ok (constraints, t') := ⟨_, _, rfl⟩
  obtain ⟨pads, committed, r', layout, a, b, _, _, sampled, laidOut, compiled, _, _, residuals,
    system, _⟩ := satisfied_iff_residuals countingTranscript countingEngine 2 (squareCircuit 1) proof
      [1] [5] derived rfl
  exact ⟨constraints, t', derived, pads, committed, r', layout, a, b, sampled, laidOut, compiled,
    by rw [residuals, system]⟩

/-- **Knowledge soundness of the compiled constraints**: committed values that satisfy the linear and
the product constraints compiled from a proof hold private inputs that the circuit accepts, with the
public ones, or a challenge of the run escapes for the pads that they hold. -/
theorem satisfied_sound (ts : Transcript σ E) {raw : RawCircuit E} (inRange : raw.InRange)
    (wellFormed : WellFormed raw) {proof : SumcheckProof E} {t t' : σ} {constraints : Constraints E}
    (derived : deriveConstraints ts raw proof t = .ok (constraints, t'))
    {publicInputs privateInputs committed : List E}
    (sizes : publicInputs.length + privateInputs.length = raw.ninput)
    {layout : CircuitPadLayout} {a : List (PolygeroLinearTerm E)} {b : List E}
    {products : List PolygeroProductConstraint}
    (laidOut : (padLayout (geometryOf raw) privateInputs.length : Exec String _) = .ok layout)
    (compiled : compile constraints layout publicInputs = .ok (a, b))
    (isProducts : (productConstraints privateInputs.length (geometryOf raw) : Exec String _) =
      .ok products)
    (linear : ∀ v ∈ systemValue a b (privateInputs ++ committed), v = 0)
    (quadratic : ∀ q ∈ products, q.Holds (privateInputs ++ committed)) :
    raw.Accepts (publicInputs ++ privateInputs) ∨
      RunEscapes ts raw (publicInputs ++ privateInputs) proof
        (proof.unmask (readPads layout (privateInputs ++ committed))) t := by
  obtain ⟨challenges, weights, shaped, fits, width, built⟩ := deriveConstraints_eq_ok derived
  have agrees : Agrees layout _ _ := agrees_readPads laidOut isProducts quadratic
  have layouts := padLayout_layers laidOut
  have rounds : List.Forall₂ (fun logw (layer : LayerProof E) => layer.rounds.length = logw)
      (geometryOf raw).logwLayers (readPads layout (privateInputs ++ committed)).layers :=
    List.forall₂_map_right_iff.mpr (layouts.imp fun _ _ here => by simpa using here.1)
  obtain ⟨found, isBuilt, layerCount, layers, isWeights, input⟩ := buildConstraints_denotes
    (ε := String) weights (shapes_of_geometry shaped.rounds rounds) fits
  obtain rfl := Except.ok.inj (isBuilt.symm.trans built)
  have inputCount : publicInputs.length + privateInputs.length = found.inputWeights.length := by
    rw [isWeights, width, sizes]
  have count : found.layers.length = layout.layers.length := by
    rw [layerCount, ← shaped.rounds.length_eq, layouts.length_eq]
  obtain ⟨a', b', compiled', system⟩ := compile_system agrees layers input count inputCount
    (List.prefix_append privateInputs committed)
  obtain ⟨rfl, rfl⟩ := Prod.mk.inj (Except.ok.inj (compiled'.symm.trans compiled))
  exact residuals_sound inRange wellFormed (by simpa using sizes) rounds derived
    (residuals_eq layers input (by rw [count, ← layouts.length_eq, rounds.length_eq])
      (by simpa using inputCount)) (system.system ▸ linear)

theorem satisfied_sound_square :
    let proof : SumcheckProof (ZMod 7) := ⟨[⟨[⟨(4, 3)⟩], (3, 1)⟩]⟩
    ∃ layout, (padLayout (geometryOf (squareCircuit 1)) 1 : Exec String _) = .ok layout ∧
      ((squareCircuit 1).Accepts ([1] ++ [0]) ∨ RunEscapes countingTranscript (squareCircuit 1)
        ([1] ++ [0]) proof (proof.unmask (readPads layout ([0] ++ [3, 4, 5, 6, 2]))) 0) :=
  ⟨_, rfl, satisfied_sound countingTranscript inRange_square wellFormed_square rfl rfl rfl rfl rfl
    (by decide) fun q member => by
      obtain rfl := List.mem_singleton.mp member
      exact ⟨5, 6, rfl, rfl, rfl⟩⟩

end Longfellow.ZkV2
