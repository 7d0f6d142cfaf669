/-
**Soundness of the v2 sumcheck.**

The values of a circuit on its inputs are what an honest prover would send. A proof of a circuit that
does not accept its inputs claims something false from the outputs on, and each step carries it on:
a message of a round, the combination of the two claims of a layer, the weights of the assertions. It
becomes true only where a challenge escapes.

* `verifyCore_sound` — **an accepted proof is one of inputs that the circuit accepts, or a challenge of
  its run escapes.**
-/

import Longfellow.Lib.Escape
import Longfellow.Sumcheck.Values
import Longfellow.SumcheckV2.Completeness
import Longfellow.SumcheckV2.Residuals

namespace Longfellow.SumcheckV2

open Lib

variable {σ E : Type} [CommRing E] [DecidableEq E] (ts : Transcript σ E)

/-! ### The values of a layer -/

theorem dot_layerOutputs {noutput : Nat} {w a : List E} {terms : List (Term E)}
    (inRange : ∀ term ∈ terms, term.g.toNat < noutput) (size : a.length = noutput) :
    dot a (layerOutputs noutput w terms) =
      (terms.map fun term => term.k * a.getD term.g.toNat 0 * term.product w).sum := by
  have grown : ∀ v : List E, v.length = noutput → dot (terms.foldl (Term.addTo w) v) a =
      dot v a + (terms.map fun term => term.k * a.getD term.g.toNat 0 * term.product w).sum := by
    induction terms with
    | nil => exact fun v _ => by simp
    | cons term terms ih =>
      obtain ⟨here, later⟩ := List.forall_mem_cons.mp inRange
      intro v sized
      rw [List.foldl_cons, ih later _ ((Term.length_addTo ..).trans sized), List.map_cons,
        List.sum_cons, ← add_assoc]
      congr 1
      unfold Term.addTo
      split
      · rename_i zero
        rw [zero, zero_mul, zero_mul, add_zero]
      · have old : v[term.g.toNat]? = some (v.getD term.g.toNat 0) := by
          rw [List.getD_eq_getElem _ _ (sized ▸ here), List.getElem?_eq_getElem]
        have weight : a[term.g.toNat]? = some (a.getD term.g.toNat 0) := by
          rw [List.getD_eq_getElem _ _ (size ▸ here), List.getElem?_eq_getElem]
        rw [dot_set_add _ old weight]
        ring
  rw [dot_comm, layerOutputs, grown _ List.length_replicate, dot_replicate_zero, zero_add]

/-! ### Escapes -/

/-- The proofs of the layers have their rounds. -/
abbrev HaveRounds (layers : List Layer) (proofs : List (LayerProof E)) : Prop :=
  List.Forall₂ (fun layer proof => proof.rounds.length = layer.logw) layers proofs

/-- The messages of the rounds of a layer. -/
def LayerProof.messages (layer : LayerProof E) : List (E × E) :=
  layer.rounds.map RoundPoly.coefficients

omit [DecidableEq E] in
theorem foldRounds_eq_carry (rounds : List (RoundPoly E)) (zs : List E) (claim : E) :
    foldRounds rounds zs claim = carry (rounds.map RoundPoly.coefficients) zs claim := by
  induction rounds generalizing zs claim with
  | nil => rfl
  | cons m rounds ih => cases zs with
    | nil => rfl
    | cons z zs => exact ih zs _

/-- A challenge of a layer escapes: `w` are the values of its wires, `claim` is the claim on its
outputs with the weights `a`, and `plain` is its proof without pads. The coefficients of the
assertions are a zero of an affine form that is not zero, a challenge of a round escapes, or the one
that combines the final claims does. -/
def LayerEscapes (layer : Layer) (constants w a cs q : List E) (plain : LayerProof E) (claim : E)
    (challenges : LayerChallenges E) : Prop :=
  let m := monomials challenges.pointL layer.nw
  let terms := layer.termsOf constants
  let lie := claim - dot a (layerOutputs a.length w terms)
  ((lie ≠ 0 ∨ ∃ s ∈ assertionValues w terms, s ≠ 0) ∧ lie = dot cs (assertionValues w terms)) ∨
    InnerEscapes plain.messages challenges.pointL q w claim ∨
    Escapes (plain.claims.1 - dot m w) (plain.claims.2 - dot m q) 0 challenges.alpha

/-- A challenge of the layers from `index` on escapes. -/
def LayersEscape (raw : RawCircuit E) (inputs : List E) : Nat → List Layer → List (LayerProof E) →
    List (LayerProof E) → List E → E → σ → Prop
  | index, layer :: layers, proof :: proofs, plain :: plains, a, claim, t =>
    let w := (circuitValues raw.constants inputs layer.nw layers).outputs
    ∃ cs q challenges aNext t₁ t₂,
      (assertionWeights ts layer raw.constants index t : Exec String _) = .ok (cs, t₁) ∧
      (bindR layer raw.constants a cs w : Exec String _) = .ok q ∧
      (deriveLayer ts index proof raw a t : Exec String _) = .ok (challenges, aNext, t₂) ∧
      (LayerEscapes layer raw.constants w a cs q plain claim challenges ∨
        LayersEscape raw inputs (index + 1) layers proofs plains aNext
          (plain.claims.1 + challenges.alpha * plain.claims.2) t₂)
  | _, _, _, _, _, _, _ => False

/-- A challenge of a run escapes: the point of the outputs is a zero of a multilinear polynomial that
is not zero, or a challenge of a layer escapes. -/
def RunEscapes (raw : RawCircuit E) (inputs : List E) (proof plain : SumcheckProof E) (t : σ) : Prop :=
  let values := circuitValues raw.constants inputs raw.noutput raw.layers
  let (pointG, t) := ts.eltFieldSlice raw.logv
    (ts.writeBytes (ascii "longfellow-sumcheck-v2-projective") t)
  ((∃ v ∈ values.outputs, v ≠ 0) ∧ dot (monomials pointG raw.noutput) values.outputs = 0) ∨
    LayersEscape ts raw inputs 0 raw.layers proof.layers plain.layers
      (monomials pointG raw.noutput) 0 t

/-! ### One layer -/

variable {ts} {raw : RawCircuit E}

/-- **One layer**: if the claim on its inputs is true, so is the claim on its outputs, and its
assertions hold, or a challenge of the layer escapes. -/
theorem deriveLayer_sound {index : Nat} {layer : Layer} (isLayer : raw.layers[index]? = some layer)
    (fits : LayerFits layer) {w a : List E} (width : w.length = layer.nw)
    (inRange : layer.WiresInRange raw.constants w.length a.length) {proof plain : LayerProof E}
    (shape : plain.rounds.length = layer.logw) (rounds : proof.rounds.length = layer.logw) {t t₂ : σ}
    {claim : E} {challenges : LayerChallenges E} {aNext : List E}
    (derived : (deriveLayer ts index proof raw a t : Exec String _) = .ok (challenges, aNext, t₂))
    (residual : foldRounds plain.rounds challenges.pointL claim = plain.claims.1 * plain.claims.2) :
    ∃ cs q t₁, (assertionWeights ts layer raw.constants index t : Exec String _) = .ok (cs, t₁) ∧
      (bindR layer raw.constants a cs w : Exec String _) = .ok q ∧ aNext.length = layer.nw ∧
      (plain.claims.1 + challenges.alpha * plain.claims.2 = dot aNext w →
        (claim = dot a (layerOutputs a.length w (layer.termsOf raw.constants)) ∧
          ∀ term ∈ layer.termsOf raw.constants, term.Holds w) ∨
        LayerEscapes layer raw.constants w a cs q plain claim challenges) := by
  set terms := layer.termsOf raw.constants with terms_eq
  have expands := inRange.terms_eq
  have inside : ∀ term ∈ terms, term.InRange w.length a.length := fun _ => inRange.term
  obtain ⟨pointL, alpha⟩ := challenges
  rw [deriveLayer, getAt_eq_ok.mpr isLayer, ok_bind] at derived
  obtain ⟨_, _, derived⟩ := bind_eq_ok.mp derived
  obtain ⟨⟨cs, t₁⟩, sampled, derived⟩ := bind_eq_ok.mp derived
  obtain ⟨_, weighted, derived⟩ := bind_eq_ok.mp derived
  obtain ⟨same, rest⟩ := Prod.mk.inj (Except.ok.inj derived)
  obtain ⟨isPoint, isAlpha⟩ := LayerChallenges.mk.inj same
  obtain ⟨rfl, -⟩ := Prod.mk.inj rest
  have count : cs.length = assertionCount terms := by
    rw [assertionWeights, expands, ok_bind, pure_eq_ok] at sampled
    rw [← length_sampleAssertions ts terms, congrArg Prod.fst (Except.ok.inj sampled)]
  have sizeP : pointL.length = layer.logw := by
    rw [← isPoint]
    exact (length_deriveRounds _ _).trans rounds
  obtain ⟨q, boundR, sizeQ, valueQ, next⟩ := vectors_spec fits width expands count
    fun term member => ⟨fun _ => (inside term member).g, (inside term member).h0,
      (inside term member).h1⟩
  obtain ⟨aNext, weighted', sizeN, carried⟩ := next pointL alpha sizeP
  obtain rfl := Except.ok.inj (weighted'.symm.trans (by rw [← isPoint, ← isAlpha]; exact weighted))
  refine ⟨cs, q, t₁, sampled, boundR, sizeN, fun claimed => ?_⟩
  rw [carried] at claimed
  have truth : dot q w = dot a (layerOutputs a.length w terms) +
      dot cs (assertionValues w terms) := by
    rw [valueQ, weightedSum_values count,
      dot_layerOutputs (fun term member => (inside term member).g) rfl]
  set m := monomials pointL layer.nw with m_eq
  by_cases combined : plain.claims.1 - dot m w ≠ 0 ∨ plain.claims.2 - dot m q ≠ 0
  · refine .inr (.inr (.inr ⟨combined.elim .inl fun lies => .inr (.inl lies), ?_⟩))
    linear_combination claimed
  obtain ⟨claimA, claimB⟩ := not_or.mp combined
  have claimA := sub_eq_zero.mp (not_not.mp claimA)
  have claimB := sub_eq_zero.mp (not_not.mp claimB)
  by_cases inner : claim = dot q w
  · by_cases holds : claim - dot a (layerOutputs a.length w terms) ≠ 0 ∨
        ∃ s ∈ assertionValues w terms, s ≠ 0
    · exact .inr (.inl ⟨holds, by rw [inner, truth, add_sub_cancel_left]⟩)
    · obtain ⟨claimed, zeros⟩ := not_or.mp holds
      refine .inl ⟨sub_eq_zero.mp (not_not.mp claimed), fun term member zero => ?_⟩
      by_contra nonzero
      exact zeros ⟨_, List.mem_map.mpr ⟨term, List.mem_filter.mpr ⟨member, by simpa using zero⟩,
        rfl⟩, nonzero⟩
  · refine .inr (.inr (.inl (innerEscapes_of_carry ?_ (sizeQ.trans width.symm)
      (width ▸ fits.wires) ?_ inner ?_)))
    · rw [LayerProof.messages, List.length_map, shape, sizeP]
    · rw [LayerProof.messages, List.length_map, width, shape]
      exact fits.nw
    · rw [LayerProof.messages, ← foldRounds_eq_carry, residual, claimA, claimB, width, sizeQ]

/-! ### All layers -/

/-- **The layers from an index on**: a true claim on the inputs of the circuit comes from a true claim
on the outputs, or a challenge escapes. -/
theorem deriveLayers_sound {inputs : List E} {layers : List Layer} {index : Nat}
    (isLayers : raw.layers.drop index = layers) (fits : ∀ layer ∈ layers, LayerFits layer)
    {proofs plains : List (LayerProof E)} {a last : List E}
    (inRange : LayersInRange raw.constants inputs.length a.length layers)
    (width : inputs.length = lastWidth a.length layers)
    (shapes : HaveRounds layers plains) (rounds : HaveRounds layers proofs) {t t' : σ}
    {challenges : List (LayerChallenges E)} {claim : E}
    (derived : (deriveLayers ts raw index proofs a t : Exec String _) = .ok (challenges, last, t'))
    (residuals : ∀ r ∈ (numericResiduals claim plains challenges).1, r = 0)
    (input : (numericResiduals claim plains challenges).2 = dot last inputs) :
    let values := circuitValues raw.constants inputs a.length layers
    (claim = dot a values.outputs ∧ values.holds) ∨
      LayersEscape ts raw inputs index layers proofs plains a claim t := by
  induction layers generalizing index proofs plains a claim t challenges with
  | nil =>
    cases shapes
    cases rounds
    obtain ⟨rfl, same⟩ := Prod.mk.inj (Except.ok.inj derived)
    obtain ⟨rfl, -⟩ := Prod.mk.inj same
    exact .inl ⟨input, trivial⟩
  | cons layer layers ih =>
    obtain - | ⟨shape, shapes⟩ := shapes
    obtain - | ⟨round, rounds⟩ := rounds
    obtain ⟨isLayer, layersAfter⟩ := of_drop_eq_cons isLayers
    obtain ⟨⟨challenge, aNext, t₂⟩, here, derived⟩ := bind_eq_ok.mp derived
    obtain ⟨⟨rest, _, _⟩, later, derived⟩ := bind_eq_ok.mp derived
    obtain ⟨rfl, same⟩ := Prod.mk.inj (Except.ok.inj derived)
    obtain ⟨rfl, rfl⟩ := Prod.mk.inj same
    set w := (circuitValues raw.constants inputs layer.nw layers).outputs with w_eq
    have reads : w.length = if layers = [] then inputs.length else layer.nw :=
      Longfellow.length_outputs ..
    have widthW : w.length = layer.nw := by
      rw [reads]
      split
      · rename_i empty
        rw [width, empty]
        rfl
      · rfl
    obtain ⟨fit, fits⟩ := List.forall_mem_cons.mp fits
    obtain ⟨residual, residuals⟩ := List.forall_mem_cons.mp residuals
    obtain ⟨cs, q, t₁, sampled, bound, sizeN, sound⟩ := deriveLayer_sound isLayer fit widthW
      (reads ▸ inRange.1) shape round here (sub_eq_zero.mp residual)
    have next := ih layersAfter fits (sizeN ▸ inRange.2) (sizeN ▸ width) shapes rounds later
      residuals input
    rw [sizeN] at next
    rcases next with ⟨true', holds⟩ | escapes
    · rcases sound true' with ⟨claimed, asserts⟩ | escapes
      · exact .inl ⟨claimed, holds, asserts⟩
      · exact .inr ⟨cs, q, challenge, aNext, t₁, t₂, sampled, bound, here, .inl escapes⟩
    · exact .inr ⟨cs, q, challenge, aNext, t₁, t₂, sampled, bound, here, .inr escapes⟩

/-! ### The whole run -/

omit [DecidableEq E] in
theorem rounds_unmask {layers : List Layer} {proofs pads : List (LayerProof E)}
    (rounds : HaveRounds layers proofs) (padRounds : HaveRounds layers pads) :
    HaveRounds layers (List.zipWith LayerProof.unmask proofs pads) := by
  induction rounds generalizing pads with
  | nil => exact .nil
  | cons here _ ih =>
    obtain - | ⟨pad, padRounds⟩ := padRounds
    refine .cons ?_ (ih padRounds)
    rw [LayerProof.unmask, List.length_zipWith, here, pad, Nat.min_self]

/-- **Residuals that vanish** are those of inputs that the circuit accepts, or a challenge escapes. -/
theorem residuals_sound (inRange : raw.InRange) (wellFormed : WellFormed raw) {inputs : List E}
    (width : inputs.length = raw.ninput) {proof pads : SumcheckProof E}
    (padRounds : List.Forall₂ (fun logw (pad : LayerProof E) => pad.rounds.length = logw)
      (geometryOf raw).logwLayers pads.layers) {t t' : σ} {constraints : Constraints E}
    (derived : deriveConstraints ts raw proof t = .ok (constraints, t')) {residuals : List E}
    (evaluated : constraints.residuals inputs pads = .ok residuals) (zeros : ∀ r ∈ residuals, r = 0) :
    raw.Accepts inputs ∨ RunEscapes ts raw inputs proof (proof.unmask pads) t := by
  obtain ⟨_, validated, derived⟩ := bind_eq_ok.mp derived
  rw [mapErr_eq_ok fun e => raise_ne_ok _ _] at validated
  obtain ⟨⟨a, t₀⟩, begun, derived⟩ := bind_eq_ok.mp derived
  obtain ⟨⟨challenges, last, _⟩, layers, derived⟩ := bind_eq_ok.mp derived
  obtain ⟨_, checked, derived⟩ := bind_eq_ok.mp derived
  obtain ⟨_, built, derived⟩ := bind_eq_ok.mp derived
  obtain ⟨rfl, -⟩ := Prod.mk.inj (Except.ok.inj derived)
  have rounds := (SumcheckProof.validate_eq_ok.mp validated).rounds
  have shapes := shapes_of_geometry rounds padRounds
  obtain ⟨found, isBuilt, count, denote, isWeights, input⟩ :=
    buildConstraints_denotes (ε := String) last shapes (fits_deriveLayers layers)
  obtain rfl := Except.ok.inj (isBuilt.symm.trans built)
  have values := residuals_eq denote input (shapes.length_eq.symm.trans count.symm)
    (by rw [isWeights, width, not_not.mp (check_eq_ok.mp checked)])
  obtain rfl := Except.ok.inj (values.symm.trans evaluated)
  obtain ⟨layerZeros, inputZero⟩ := List.forall_mem_append.mp zeros
  have inputZero := sub_eq_zero.mp (inputZero _ (List.mem_singleton_self _))
  rw [isWeights] at inputZero
  rw [begin_eq ts wellFormed.logv wellFormed.noutput] at begun
  set drawn := ts.eltFieldSlice raw.logv
    (ts.writeBytes (ascii "longfellow-sumcheck-v2-projective") t) with drawn_eq
  obtain ⟨rfl, rfl⟩ : monomials drawn.1 raw.noutput = a ∧ drawn.2 = t₀ :=
    Prod.mk.inj (Except.ok.inj begun)
  have sizeA : (monomials drawn.1 raw.noutput).length = raw.noutput := length_monomials _ _
  have rounds := List.forall₂_map_left_iff.mp rounds
  have sound := deriveLayers_sound (List.drop_zero ..) wellFormed.layers
    (by rw [width, sizeA]; exact inRange) (by rw [sizeA, width, wellFormed.ninput])
    (rounds_unmask rounds (List.forall₂_map_left_iff.mp padRounds)) rounds layers layerZeros inputZero
  rw [sizeA] at sound
  rcases sound with ⟨claimed, holds⟩ | escapes
  · by_cases lies : ∃ v ∈ (circuitValues raw.constants inputs raw.noutput raw.layers).outputs, v ≠ 0
    · exact .inr (.inl ⟨lies, claimed.symm⟩)
    · exact .inl ⟨holds, by simpa using lies⟩
  · exact .inr (.inr escapes)

/-- **Soundness**: a proof that the verifier accepts is one of inputs that the circuit accepts, or a
challenge of its run escapes. -/
theorem verifyCore_sound (ts : Transcript σ E) (inRange : raw.InRange)
    (wellFormed : WellFormed raw) {inputs : List E} {proof pads : SumcheckProof E} {t t' : σ}
    (accepted : verifyCore ts inputs pads raw proof t = .ok t') :
    raw.Accepts inputs ∨ RunEscapes ts raw inputs proof (proof.unmask pads) t := by
  obtain ⟨_, validated, accepted⟩ := bind_eq_ok.mp accepted
  rw [mapErr_eq_ok fun e => raise_ne_ok _ _] at validated
  obtain ⟨_, width, accepted⟩ := bind_eq_ok.mp accepted
  obtain ⟨⟨constraints, _⟩, derived, accepted⟩ := bind_eq_ok.mp accepted
  obtain ⟨residuals, evaluated, accepted⟩ := bind_eq_ok.mp accepted
  obtain ⟨last, isLast, accepted⟩ := bind_eq_ok.mp accepted
  obtain ⟨_, layerZeros, accepted⟩ := bind_eq_ok.mp accepted
  obtain ⟨_, inputZero, _⟩ := bind_eq_ok.mp accepted
  refine residuals_sound inRange wellFormed (not_not.mp (check_eq_ok.mp width))
    (SumcheckProof.validate_eq_ok.mp validated).rounds derived evaluated fun r member => ?_
  obtain ⟨before, rfl⟩ := List.getLast?_eq_some_iff.mp (expect_eq_ok.mp isLast)
  rw [List.dropLast_concat] at layerZeros
  rcases List.mem_append.mp member with isLayer | isInput
  · exact check_eq_ok.mp layerZeros r isLayer
  · rw [List.mem_singleton.mp isInput]
    exact check_eq_ok.mp inputZero

theorem inRange_square : (squareCircuit 1).InRange := by
  refine ⟨⟨by decide, fun {terms} expands term member => ?_⟩, trivial⟩
  obtain rfl := Except.ok.inj (expands.symm.trans rfl)
  rcases List.mem_pair.mp member with rfl | rfl <;> exact ⟨by decide, by decide, by decide⟩

theorem wellFormed_square : WellFormed (squareCircuit 1) := by
  refine ⟨by decide, by decide, fun layer member => ?_, rfl⟩
  obtain rfl := List.mem_singleton.mp member
  exact ⟨by decide, by decide, by decide⟩

theorem verifyCore_sound_square :
    let proof : SumcheckProof (ZMod 7) := ⟨[⟨[⟨(4, 3)⟩], (3, 1)⟩]⟩
    let pads : SumcheckProof (ZMod 7) := ⟨[⟨[⟨(3, 4)⟩], (5, 6)⟩]⟩
    ∃ t', verifyCore countingTranscript [1, 0] pads (squareCircuit 1) proof 0 = .ok t' ∧
      ((squareCircuit 1).Accepts [1, 0] ∨ RunEscapes countingTranscript (squareCircuit 1) [1, 0]
        proof (proof.unmask pads) 0) :=
  ⟨_, rfl, verifyCore_sound countingTranscript inRange_square wellFormed_square rfl⟩

end Longfellow.SumcheckV2
