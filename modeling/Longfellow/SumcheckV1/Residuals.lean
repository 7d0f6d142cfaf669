/-
**The residuals of an unmasked proof.**

What the relations of a proof say once the pads are added back: the claim of a layer, carried through
its round polynomials, minus the bound wiring tensor times the two final claims, and at the end the
weighted inputs minus the last claims. No symbol is left in them.

* `symbolicVerify_denotes` — **the relations denote the residuals**, layer by layer.
-/

import Longfellow.SumcheckV1.Prover

set_option linter.unusedSectionVars false

namespace Longfellow.SumcheckV1

open Lib

variable {σ E : Type} [CommRing E]

/-! ### The numbers -/

/-- A layer with its pads added back. -/
def LayerProof.unmask (message pad : LayerProof E) : LayerProof E where
  hp := (List.zipWith (fun m p => ⟨m.unmask p⟩) message.hp.1 pad.hp.1,
    List.zipWith (fun m p => ⟨m.unmask p⟩) message.hp.2 pad.hp.2)
  claims := (message.claims.1 + pad.claims.1, message.claims.2 + pad.claims.2)

/-- A proof with its pads added back. -/
def SumcheckProof.unmask (proof pads : SumcheckProof E) : SumcheckProof E :=
  ⟨List.zipWith LayerProof.unmask proof.layers pads.layers⟩

/-- Carry a claim through the rounds of a layer, the right hand before the left one. -/
def foldRounds : List (RoundPoly E) → List (RoundPoly E) → List (RoundCoefficients E) →
    List (RoundCoefficients E) → E → E
  | m0 :: hp0, m1 :: hp1, c0 :: rounds0, c1 :: rounds1, claim =>
    foldRounds hp0 hp1 rounds0 rounds1
      (c1.evaluate m1.evaluations (c0.evaluate m0.evaluations claim))
  | _, _, _, _, claim => claim

/-- The residual of a layer, from the claims on its outputs. -/
def layerResidual (claims : E × E) (layer : LayerProof E) (data : LayerVerifierData E) : E :=
  foldRounds layer.hp.1 layer.hp.2 data.rounds.1 data.rounds.2 (claims.1 + data.alpha * claims.2) -
    data.boundQuad * (layer.claims.1 * layer.claims.2)

/-- The residuals of the layers, and the claims that are left. -/
def numericResiduals : E × E → List (LayerProof E) → List (LayerVerifierData E) → List E × (E × E)
  | claims, layer :: layers, data :: rest =>
    let (later, last) := numericResiduals layer.claims layers rest
    (layerResidual claims layer data :: later, last)
  | claims, _, _ => ([], claims)

/-- **The residuals of an unmasked proof**: one for each layer, then the input. -/
def residuals (unmasked : SumcheckProof E) (data : VerifierData E) (inputs : List E) : List E :=
  let (layers, last) := numericResiduals (0, 0) unmasked.layers data.layers
  layers ++ [dot data.inputWeights inputs - (last.1 + data.inputAlpha * last.2)]

/-! ### The data of a verifier -/

/-- The data of a layer has one multiplier for each round of each hand. -/
def LayerVerifierData.Fits (layer : LayerProof E) (data : LayerVerifierData E) : Prop :=
  data.rounds.1.length = layer.hp.1.length ∧ data.rounds.2.length = layer.hp.1.length ∧
    layer.hp.2.length = layer.hp.1.length

theorem length_fillRecursive {ε : Type} {g0 g1 : List E} {l n : Nat} {w0 w1 : E} {table : List E}
    (filled : (fillRecursive g0 g1 l n w0 w1 : Exec ε _) = .ok table) : table.length = n := by
  cases l with
  | zero =>
    rw [fillRecursive] at filled
    split at filled
    · exact absurd filled (abort_ne_ok _ _)
    · rw [← Except.ok.inj filled, List.length_cons, List.length_replicate]
      omega
  | succ l =>
    obtain ⟨_, checked, _⟩ := bind_eq_ok.mp filled
    obtain ⟨long0, long1, positive⟩ := ensure_eq_ok.mp checked
    obtain ⟨again, ran, size⟩ := fillRecursive_returns (ε := ε) long0 long1
      (Nat.pos_of_ne_zero positive) w0 w1
    rw [ran] at filled
    rwa [← Except.ok.inj filled]

variable [DecidableEq E] {ts : Transcript σ E} {f : InterpolationField E}
  {data : List (LayerVerifierData E)} {proof : SumcheckProof E}

theorem length_deriveRounds {hp0 hp1 : List (RoundPoly E)} {t t' : σ} {rounds : Rounds E}
    (sizes : hp1.length = hp0.length) (derived : deriveRounds ts f hp0 hp1 t = .ok (rounds, t')) :
    rounds.coefficients.1.length = hp0.length ∧ rounds.coefficients.2.length = hp0.length := by
  induction hp0 generalizing hp1 t t' rounds with
  | nil =>
    obtain ⟨rfl, -⟩ := Prod.mk.inj (Except.ok.inj derived)
    exact ⟨rfl, rfl⟩
  | cons m0 hp0 ih =>
    obtain ⟨m1, hp1, rfl⟩ := List.exists_cons_of_length_eq_add_one sizes
    obtain ⟨c0, _, derived⟩ := bind_eq_ok.mp derived
    obtain ⟨c1, _, derived⟩ := bind_eq_ok.mp derived
    obtain ⟨⟨rest, _⟩, later, derived⟩ := bind_eq_ok.mp derived
    obtain ⟨rfl, -⟩ := Prod.mk.inj (Except.ok.inj derived)
    obtain ⟨first, second⟩ := ih (by simpa using sizes) later
    exact ⟨congrArg (· + 1) first, congrArg (· + 1) second⟩

theorem fits_deriveLayers {constants : List E} {layers : List Layer} {proofs : List (LayerProof E)}
    {bindings last : Bindings E} {t t' : σ}
    (shaped : List.Forall₂ (fun logw (layer : LayerProof E) => layer.Rounds logw)
      (layers.map Layer.logw) proofs)
    (derived : deriveLayers ts f constants layers proofs bindings t = .ok (data, last, t')) :
    List.Forall₂ LayerVerifierData.Fits proofs data := by
  induction layers generalizing proofs bindings last t t' data with
  | nil =>
    cases shaped
    obtain ⟨rfl, -⟩ := Prod.mk.inj (Except.ok.inj derived)
    exact .nil
  | cons layer layers ih =>
    obtain - | ⟨⟨right, left⟩, shaped⟩ := shaped
    obtain ⟨⟨rounds, _⟩, ranRounds, derived⟩ := bind_eq_ok.mp derived
    obtain ⟨quad, _, derived⟩ := bind_eq_ok.mp derived
    obtain ⟨boundQuad, _, derived⟩ := bind_eq_ok.mp derived
    obtain ⟨⟨rest, _, _⟩, later, derived⟩ := bind_eq_ok.mp derived
    obtain ⟨rfl, -⟩ := Prod.mk.inj (Except.ok.inj derived)
    have sizes := left.trans right.symm
    obtain ⟨first, second⟩ := length_deriveRounds sizes ranRounds
    exact .cons ⟨first, second, sizes⟩ (ih shaped later)

/-- **The derived data fits the proof**: a multiplier for each round, a weight for each input. -/
theorem deriveVerifierData_shape {raw : RawCircuit E} {t t' : σ}
    {data : VerifierData E} (derived : deriveVerifierData ts f raw proof t = .ok (data, t')) :
    proof.Shaped (.fromCircuit raw) ∧ List.Forall₂ LayerVerifierData.Fits proof.layers data.layers ∧
      data.inputWeights.length = raw.ninput := by
  obtain ⟨_, validated, derived⟩ := bind_eq_ok.mp derived
  rw [mapErr_eq_ok fun e => raise_ne_ok _ _] at validated
  have shaped := SumcheckProof.validate_eq_ok.mp validated
  obtain ⟨⟨layers, _, _⟩, ranLayers, derived⟩ := bind_eq_ok.mp derived
  obtain ⟨weights, ranWeights, derived⟩ := bind_eq_ok.mp derived
  obtain ⟨rfl, -⟩ := Prod.mk.inj (Except.ok.inj derived)
  exact ⟨shaped, fits_deriveLayers shaped.rounds ranLayers, length_fillRecursive ranWeights⟩

/-! ### What the relations denote -/

section Relations

variable {pads : SumcheckProof E}

variable {layer : Nat} {claim : PadExpression E} {value : E}

theorem denotes_runRounds {pad : LayerProof E} (n : Nat) (isLayer : pads.layers[layer]? = some pad)
    {hp0 hp1 p0 p1 : List (RoundPoly E)} {c0 c1 : List (RoundCoefficients E)} (first : Nat)
    (padsRight : pad.hp.1.drop first = p0) (padsLeft : pad.hp.2.drop first = p1)
    (sizes : hp0.length = n ∧ hp1.length = n ∧ p0.length = n ∧ p1.length = n ∧ c0.length = n ∧
      c1.length = n) (denotes : claim.Denotes (padValue pads) value) :
    (claim.runRounds layer first hp0 hp1 c0 c1).Denotes (padValue pads)
      (foldRounds (List.zipWith (fun m p => ⟨m.unmask p⟩) hp0 p0)
        (List.zipWith (fun m p => ⟨m.unmask p⟩) hp1 p1) c0 c1 value) := by
  induction n generalizing hp0 hp1 p0 p1 c0 c1 claim value first with
  | zero =>
    obtain ⟨h0, h1, _, _, _, _⟩ := sizes
    rw [List.length_eq_zero_iff] at h0 h1
    subst h0 h1
    exact denotes
  | succ n ih =>
    obtain ⟨size0, size1, sizeP0, sizeP1, sizeC0, sizeC1⟩ := sizes
    obtain ⟨m0, hp0, rfl⟩ := List.exists_cons_of_length_eq_add_one size0
    obtain ⟨m1, hp1, rfl⟩ := List.exists_cons_of_length_eq_add_one size1
    obtain ⟨pad0, p0, rfl⟩ := List.exists_cons_of_length_eq_add_one sizeP0
    obtain ⟨pad1, p1, rfl⟩ := List.exists_cons_of_length_eq_add_one sizeP1
    obtain ⟨k0, c0, rfl⟩ := List.exists_cons_of_length_eq_add_one sizeC0
    obtain ⟨k1, c1, rfl⟩ := List.exists_cons_of_length_eq_add_one sizeC1
    obtain ⟨isRight, restRight⟩ := of_drop_eq_cons padsRight
    obtain ⟨isLeft, restLeft⟩ := of_drop_eq_cons padsLeft
    have right : (claim.roundStep layer first .right m0 k0).Denotes (padValue pads)
        (k0.evaluate (m0.unmask pad0) value) := denotes_round denotes isLayer isRight m0 k0
    have left : ((claim.roundStep layer first .right m0 k0).roundStep layer first .left m1
        k1).Denotes (padValue pads) (k1.evaluate (m1.unmask pad1) (k0.evaluate (m0.unmask pad0)
        value)) := denotes_round right isLayer isLeft m1 k1
    simp only [List.length_cons, Nat.add_right_cancel_iff] at *
    exact ih (first + 1) restRight restLeft ⟨size0, size1, sizeP0, sizeP1, sizeC0, sizeC1⟩ left

/-- The relation of a layer denotes a residual, up to the product of its claim pads. -/
def LayerRelation.Denotes (relation : LayerRelation E) (pads : SumcheckProof E) (pad : LayerProof E)
    (value : E) : Prop :=
  relation.linear.Denotes (padValue pads)
    (value - relation.productCoefficient * (pad.claims.1 * pad.claims.2))

/-- The relations of a list of layers denote their residuals. -/
inductive LayersDenote (pads : SumcheckProof E) :
    Nat → List (LayerRelation E) → List E → Prop where
  | nil (layer : Nat) : LayersDenote pads layer [] []
  | cons {layer : Nat} {relation : LayerRelation E} {pad : LayerProof E} {value : E}
      {relations : List (LayerRelation E)} {values : List E}
      (isLayer : pads.layers[layer]? = some pad) (here : relation.Denotes pads pad value)
      (later : LayersDenote pads (layer + 1) relations values) :
      LayersDenote pads layer (relation :: relations) (value :: values)

theorem denotes_relation {pad : LayerProof E} (isLayer : pads.layers[layer]? = some pad)
    (denotes : claim.Denotes (padValue pads) value) (m : E × E) (boundQuad : E) :
    (LayerRelation.new layer claim m boundQuad).Denotes pads pad
      (value - boundQuad * ((m.1 + pad.claims.1) * (m.2 + pad.claims.2))) := by
  have stepped := ((denotes.subConstant (boundQuad * (m.1 * m.2))).addTerm
    (padValue_endpoint isLayer .right) (-(boundQuad * m.2))).addTerm
    (padValue_endpoint isLayer .left) (-(boundQuad * m.1))
  have same : value - boundQuad * ((m.1 + pad.claims.1) * (m.2 + pad.claims.2)) -
      (LayerRelation.new layer claim m boundQuad).productCoefficient *
        (pad.claims.1 * pad.claims.2) = value - boundQuad * (m.1 * m.2) +
      -(boundQuad * m.2) * Hand.right.get pad.claims +
      -(boundQuad * m.1) * Hand.left.get pad.claims := by
    simp only [LayerRelation.new, Hand.get]
    ring
  rw [LayerRelation.Denotes, same]
  exact stepped

/-- The relations of the layers behind `before`. -/
theorem verifyLayers_denotes {before later : List (LayerProof E)} {padsLater : List (LayerProof E)}
    {claims : E × E} (unmasked : Unmasked pads before claims)
    (padsHere : pads.layers.drop before.length = padsLater)
    (shapes : List.Forall₂ (fun layer pad => pad.Rounds layer.hp.1.length) later padsLater)
    (fits : List.Forall₂ LayerVerifierData.Fits later data) :
    let numeric := numericResiduals claims (List.zipWith LayerProof.unmask later padsLater) data
    ∃ relations, verifyLayers ⟨before ++ later⟩ before.length data = .ok relations ∧
      LayersDenote pads before.length relations numeric.1 ∧
      Unmasked pads (before ++ later) numeric.2 := by
  induction fits generalizing before padsLater claims with
  | nil =>
    refine ⟨[], rfl, .nil _, ?_⟩
    rw [List.append_nil]
    exact unmasked
  | @cons layer data later rest here _ ih =>
    obtain - | @⟨_, pad, _, padsLater, ⟨padRight, padLeft⟩, shapes⟩ := shapes
    obtain ⟨isLayer, padsNext⟩ := of_drop_eq_cons padsHere
    obtain ⟨coefficients0, coefficients1, sizes⟩ := here
    obtain ⟨claim, isClaim, denotes⟩ := unmasked.denotes (layer :: later) data.alpha
    have rounds := denotes_runRounds layer.hp.1.length isLayer 0 rfl rfl
      ⟨rfl, sizes, padRight, padLeft, coefficients0, coefficients1⟩ denotes
    have relation := denotes_relation isLayer rounds layer.claims data.boundQuad
    -- The claims of this layer are the claims on the outputs of the next.
    have next : Unmasked pads (before ++ [layer]) (layer.unmask pad).claims :=
      .inr ⟨before, layer, pad, rfl, isLayer, rfl⟩
    have append : before ++ layer :: later = (before ++ [layer]) ++ later := by simp
    have index : (before ++ [layer]).length = before.length + 1 := by simp
    obtain ⟨relations, ran, layers, final⟩ := ih next (by rw [index]; exact padsNext) shapes
    rw [index] at ran layers
    rw [← append] at ran final
    have found : (before ++ layer :: later)[before.length]? = some layer := by simp
    have counts : ¬(layer.hp.2.length ≠ layer.hp.1.length ∨
        (data.rounds.1.length ≠ layer.hp.1.length ∨
          data.rounds.2.length ≠ layer.hp.1.length)) := by
      simp [sizes, coefficients0, coefficients1]
    refine ⟨_, ?_, .cons isLayer relation layers, final⟩
    rw [verifyLayers, getAt_eq_ok.mpr found, ok_bind]
    simp only [check_of counts, ok_bind, isClaim]
    rw [ran, ok_bind, pure_eq_ok]

variable {relations : List (LayerRelation E)}

theorem length_verifyLayers (ran : verifyLayers proof layer data = .ok relations) :
    relations.length = data.length := by
  induction data generalizing layer relations with
  | nil =>
    rw [← Except.ok.inj ran]
    rfl
  | cons first rest ih =>
    obtain ⟨messages, _, ran⟩ := bind_eq_ok.mp ran
    obtain ⟨_, _, ran⟩ := bind_eq_ok.mp ran
    obtain ⟨claim, _, ran⟩ := bind_eq_ok.mp ran
    obtain ⟨later, ranLater, ran⟩ := bind_eq_ok.mp ran
    rw [← Except.ok.inj ran, List.length_cons, ih ranLater, List.length_cons]

/-- **The relations denote the residuals**: the ones of the layers one by one, and the last claims
that the inputs are compared with. -/
theorem symbolicVerify_denotes {data : VerifierData E}
    (shapes : List.Forall₂ (fun layer (pad : LayerProof E) => pad.Rounds layer.hp.1.length)
      proof.layers pads.layers)
    (fits : List.Forall₂ LayerVerifierData.Fits proof.layers data.layers) :
    let numeric := numericResiduals (0, 0) (proof.unmask pads).layers data.layers
    ∃ relations, symbolicVerify proof data = .ok relations ∧
      relations.layers.length = proof.layers.length ∧
      LayersDenote pads 0 relations.layers numeric.1 ∧
      relations.input.weights = data.inputWeights ∧
      relations.input.linear.Denotes (padValue pads)
        (-(numeric.2.1 + data.inputAlpha * numeric.2.2)) := by
  obtain ⟨proofs⟩ := proof
  obtain ⟨relations, ran, layers, last⟩ := verifyLayers_denotes (.inl ⟨rfl, rfl⟩) List.drop_zero
    shapes fits
  have count : ¬proofs.length ≠ data.layers.length := not_not.mpr fits.length_eq
  have ran : verifyLayers ⟨proofs⟩ 0 data.layers = .ok relations := ran
  refine ⟨⟨relations, ⟨data.inputWeights, (inputClaim ⟨proofs⟩ data.inputAlpha).neg⟩⟩, ?_,
    (length_verifyLayers ran).trans fits.length_eq.symm, layers, rfl,
    (last.denotes_inputClaim data.inputAlpha).neg⟩
  rw [symbolicVerify, check_of count, ok_bind, ran, ok_bind, pure_eq_ok]

theorem LayersDenote.layerResiduals_eq {values : List E}
    (denote : LayersDenote pads layer relations values) :
    layerResiduals pads relations (pads.layers.drop layer) = .ok values := by
  induction denote with
  | nil layer => simp [layerResiduals]
  | @cons layer relation pad value relations values isLayer here _ ih =>
    obtain ⟨bound, isPad⟩ := List.getElem?_eq_some_iff.mp isLayer
    have evaluated : relation.evaluate pads pad = .ok value := by
      have linear := Affine.Denotes.evaluate_eq here "sumcheck relation pad shape mismatch"
      rw [LayerRelation.evaluate, SumcheckV1.evaluate, linear, ok_bind, pure_eq_ok, sub_add_cancel]
    rw [← List.cons_getElem_drop_succ (h := bound), isPad, layerResiduals, evaluated, ok_bind, ih,
      ok_bind, pure_eq_ok]

/-- **The numeric check computes the residuals.** -/
theorem evaluate_eq_residuals {relations : VerificationRelations E} {values inputs : List E}
    (layers : LayersDenote pads 0 relations.layers values)
    (input : relations.input.linear.Denotes (padValue pads) value)
    (count : pads.layers.length = relations.layers.length)
    (sizes : inputs.length = relations.input.weights.length) :
    relations.evaluate inputs pads =
      .ok (values ++ [value + dot relations.input.weights inputs]) := by
  have shape : ¬(pads.layers.length ≠ relations.layers.length ∨
      inputs.length ≠ relations.input.weights.length) := by
    simp [count, sizes]
  have all := layers.layerResiduals_eq
  rw [List.drop_zero] at all
  have last := input.evaluate_eq "sumcheck relation pad shape mismatch"
  rw [VerificationRelations.evaluate, check_of shape, ok_bind, all, ok_bind, SumcheckV1.evaluate,
    last, ok_bind, Blas.dot_eq sizes.symm, ok_bind, pure_eq_ok]

end Relations

end Longfellow.SumcheckV1
