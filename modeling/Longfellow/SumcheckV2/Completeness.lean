/-
**Completeness of the v2 sumcheck.**

On a circuit that evaluates, with the inputs of its layers, every assignment of pads and every way
to sample challenges, the prover returns; the public reduction of its proof on the same transcript
gives the same constraints; and every residual of the constraints on the inputs and the pads is
zero.

* `proveRounds_spec` — **the rounds of a layer** by induction: the claim stays the inner product of
  the bound vectors, and the symbolic claim denotes it.
-/

import Longfellow.Sumcheck.Eval
import Longfellow.SumcheckV2.Prover
import Mathlib.Data.ZMod.Basic

namespace Longfellow.SumcheckV2

open Lib

variable {σ E : Type} [CommRing E] [DecidableEq E] {ts : Transcript σ E}

/-! ### Weights -/

omit [DecidableEq E] in
theorem weights_eq {logn n : Nat} {point : List E} (sane : Longfellow.SaneLogw logn)
    (size : point.length = logn) (fits : n ≤ 2 ^ logn) :
    (weights logn n point : Exec String _) = .ok (monomials point n) := by
  rw [weights, ensure_of ⟨sane, size.ge⟩, ok_bind, ensure_of fits, ok_bind]
  have all : point.take logn = point := List.take_of_length_le size.le
  by_cases zero : n = 0
  · subst zero
    rw [if_neg (by simp)]
    rfl
  · rw [if_pos zero, all, fillMonomials_eq _ _ (Nat.pos_of_ne_zero zero)
      (by rw [List.length_reverse, size]; exact fits), List.reverse_reverse]
    simp

/-- The weights of the outputs. -/
def outputWeights (ts : Transcript σ E) (raw : RawCircuit E) (t : σ) : List E × σ :=
  let (pointG, t) := ts.eltFieldSlice raw.logv
    (ts.writeBytes (ascii "longfellow-sumcheck-v2-projective") t)
  (monomials pointG raw.noutput, t)

variable {raw : RawCircuit E}

omit [DecidableEq E] in
theorem begin_eq (ts : Transcript σ E) (sane : Longfellow.SaneLogw raw.logv)
    (fits : raw.noutput ≤ 2 ^ raw.logv) (t : σ) :
    (begin ts raw t : Exec String _) = .ok (outputWeights ts raw t) := by
  have size := ts.length_eltFieldSlice raw.logv
    (ts.writeBytes (ascii "longfellow-sumcheck-v2-projective") t)
  rw [begin, ensure_of sane, ok_bind]
  simp only [weights_eq sane size fits, ok_bind, pure_eq_ok]
  rfl

/-! ### Binding the terms -/

/-- The number of assertions among the terms. -/
def assertionCount (terms : List (Term E)) : Nat := terms.countP fun term => term.k = 0

theorem length_sampleAssertions (ts : Transcript σ E) (terms : List (Term E)) (t : σ) :
    (sampleAssertions ts terms t).1.length = assertionCount terms := by
  induction terms generalizing t with
  | nil => rfl
  | cons term terms ih =>
    unfold sampleAssertions assertionCount
    by_cases zero : term.k = 0
    · rw [if_pos zero, List.countP_cons_of_pos (by simpa using zero)]
      simp [ih, assertionCount]
    · rw [if_neg zero, List.countP_cons_of_neg (by simpa using zero), ih, assertionCount]

/-- The coefficients of the terms, with the sampled ones at the assertions. -/
def coefficients (a : List E) : List (Term E) → List E → List E
  | [], _ => []
  | term :: terms, cs =>
    if term.k = 0 then cs.headD 0 :: coefficients a terms cs.tail
    else a.getD term.g.toNat 0 * term.k :: coefficients a terms cs

/-- The sum of the terms of a layer with given coefficients and values of their wires. -/
def weightedSum (cs : List E) (terms : List (Term E)) (value : Term E → E) : E :=
  dot cs (terms.map value)

variable {a assertions : List E} {terms : List (Term E)}

theorem coefficientOf_eq {term : Term E}
    (count : assertions.length = assertionCount (term :: terms))
    (inside : term.k ≠ 0 → term.g.toNat < a.length) :
    ∃ c rest, (coefficientOf a assertions term : Exec String _) = .ok (c, rest) ∧
      rest.length = assertionCount terms ∧
      coefficients a (term :: terms) assertions = c :: coefficients a terms rest := by
  have unfolded := coefficients.eq_2 a assertions term terms
  unfold coefficientOf
  unfold assertionCount at count ⊢
  by_cases zero : term.k = 0
  · rw [List.countP_cons_of_pos (by simpa using zero)] at count
    obtain ⟨c, rest, rfl⟩ := List.exists_cons_of_length_eq_add_one count
    rw [if_pos zero] at unfolded ⊢
    exact ⟨c, rest, rfl, by simpa using count, unfolded⟩
  · rw [List.countP_cons_of_neg (by simpa using zero)] at count
    have bound := inside zero
    rw [if_neg zero, List.getD_eq_getElem _ _ bound] at unfolded
    rw [if_neg zero, getAt_of_lt bound, ok_bind]
    by_cases one : term.k = 1
    · rw [one, mul_one] at unfolded
      rw [if_pos one, pure_eq_ok]
      exact ⟨_, _, rfl, count, unfolded⟩
    · rw [if_neg one, pure_eq_ok]
      exact ⟨_, _, rfl, count, unfolded⟩

theorem foldlM_bindTerm {free bound : Term E → UInt32} {b : List E} {q : List E}
    (count : assertions.length = assertionCount terms)
    (inside : ∀ term ∈ terms, (term.k ≠ 0 → term.g.toNat < a.length) ∧
      (free term).toNat < q.length ∧ (bound term).toNat < b.length) :
    ∃ q', (terms.foldlM (bindTerm free bound a b) (q, assertions) : Exec String _) = .ok (q', []) ∧
      q'.length = q.length ∧ ∀ v : List E, v.length = q.length → dot q' v = dot q v +
        weightedSum (coefficients a terms assertions) terms fun term =>
          b.getD (bound term).toNat 0 * v.getD (free term).toNat 0 := by
  induction terms generalizing q assertions with
  | nil =>
    obtain rfl := List.eq_nil_of_length_eq_zero count
    exact ⟨q, rfl, rfl, fun v _ => by simp [weightedSum, coefficients]⟩
  | cons term terms ih =>
    obtain ⟨insideG, insideFree, insideBound⟩ := inside term (List.mem_cons_self ..)
    obtain ⟨c, rest, coefficient, count', unfolded⟩ := coefficientOf_eq count insideG
    set next := q.set (free term).toNat (q[(free term).toNat] + c * b[(bound term).toNat])
      with next_eq
    have size : next.length = q.length := by simp [next]
    have stepped : (bindTerm free bound a b (q, assertions) term : Exec String _) =
        .ok (next, rest) := by
      simp only [bindTerm, coefficient, ok_bind, getAt_of_lt insideFree,
        getAt_of_lt insideBound, setAt_of_lt insideFree, pure_eq_ok, next]
    obtain ⟨q', folded, size', value⟩ := ih (q := next) count' fun other member => by
      rw [size]
      exact inside other (List.mem_cons_of_mem _ member)
    refine ⟨q', by rw [List.foldlM_cons, stepped, ok_bind, folded], size'.trans size, ?_⟩
    intro v sized
    have here : v[(free term).toNat]? = some (v.getD (free term).toNat 0) := by
      rw [List.getD_eq_getElem _ _ (sized.symm ▸ insideFree), List.getElem?_eq_getElem]
    have old : q[(free term).toNat]? = some q[(free term).toNat] := List.getElem?_eq_getElem _
    rw [value v (sized.trans size.symm), next_eq, dot_set_add _ old here, unfolded, weightedSum,
      weightedSum, List.map_cons, dot_cons, List.getD_eq_getElem _ _ insideBound]
    ring

variable {layer : Layer} {constants : List E}

/-- **A bound vector through its inner products.** -/
theorem bindWires_spec (free bound : Term E → UInt32) {b : List E}
    (expands : (layer.terms constants : Exec String _) = .ok terms)
    (count : assertions.length = assertionCount terms)
    (inside : ∀ term ∈ terms, (term.k ≠ 0 → term.g.toNat < a.length) ∧
      (free term).toNat < layer.nw ∧ (bound term).toNat < b.length) :
    ∃ q, (bindWires free bound layer constants a assertions b : Exec String _) = .ok q ∧
      q.length = layer.nw ∧ ∀ v : List E, v.length = layer.nw → dot q v =
        weightedSum (coefficients a terms assertions) terms fun term =>
          b.getD (bound term).toNat 0 * v.getD (free term).toNat 0 := by
  have size : (List.replicate layer.nw (0 : E)).length = layer.nw := List.length_replicate
  obtain ⟨q, folded, size', value⟩ := foldlM_bindTerm (a := a) (b := b)
    (q := List.replicate layer.nw 0) count fun term member => by
      rw [size]
      exact inside term member
  refine ⟨q, ?_, size'.trans size, fun v sized => ?_⟩
  · rw [bindWires, expands, ok_bind, folded, ok_bind]
    rfl
  · rw [value v (sized.trans size.symm), dot_replicate_zero, zero_add]

/-! ### The rounds of a layer -/

/-- What the rounds of a layer return: the vectors bound at the sampled point, their product as the
claim, the challenges that the reduction derives, and a symbolic claim that denotes the claim. -/
structure RoundsSpec (ts : Transcript σ E) (pads : List (RoundPoly E)) (w qL : List E) (t : σ)
    (r : Rounds σ E) : Prop where
  rounds : r.rounds.length = pads.length
  pointL : r.pointL.length = pads.length
  boundW : r.w = [dot (monomials r.pointL w.length) w]
  boundQ : r.qL = [dot (monomials r.pointL qL.length) qL]
  claim : r.claim = dot (monomials r.pointL w.length) w * dot (monomials r.pointL qL.length) qL
  derived : deriveRounds ts r.rounds t = (r.pointL, r.t)
  symbolic : ∀ {allPads : SumcheckProof E} {layer i : Nat} {layerPads : LayerProof E}
    {expr : PadExpression E}, allPads.layers[layer]? = some layerPads →
    layerPads.rounds.drop i = pads → expr.Denotes (padValue allPads) (dot qL w) →
    (expr.runRounds layer i r.rounds r.pointL).Denotes (padValue allPads) r.claim

omit [DecidableEq E] in
theorem bind_eq {v : List E} (nonempty : 0 < v.length) (z : E) :
    (bind v z : Exec String _) = .ok (foldPairs z v) := by
  rw [bind, ensure_of (List.length_pos_iff.mp nonempty), ok_bind, pure_eq_ok]

variable {w : List E}

omit [DecidableEq E] in
theorem round_eq (ts : Transcript σ E) {qL : List E} (size : qL.length = w.length)
    (nonempty : 0 < w.length) (pads : RoundPoly E) (claim : E) (t : σ) :
    ∃ m z t', roundChallenge ts m t = (z, t') ∧
      m.coefficients.1 + pads.coefficients.1 = (pairSums qL w).1 ∧
      m.coefficients.2 + pads.coefficients.2 = (pairSums qL w).2 - claim ∧
      (round ts w qL pads claim t : Exec String _) = .ok (m, z, claim * (z * z) +
        (1 - z * z) * (pairSums qL w).1 + z * ((pairSums qL w).2 - claim), foldPairs z w,
        foldPairs z qL, t') := by
  refine ⟨⟨((pairSums qL w).1 - pads.coefficients.1,
    (pairSums qL w).2 - claim - pads.coefficients.2)⟩, _, _, rfl, sub_add_cancel _ _,
    sub_add_cancel _ _, ?_⟩
  simp only [round, quadRoundPoly, ensure_of size, ok_bind, pure_eq_ok, bind_eq nonempty,
    bind_eq (size.symm ▸ nonempty)]
  rfl

omit [DecidableEq E] in
/-- **The rounds of a layer**, from a claim that is the inner product of the two vectors. -/
theorem proveRounds_spec (ts : Transcript σ E) (pads : List (RoundPoly E)) {qL : List E}
    (size : qL.length = w.length) (nonempty : 0 < w.length) (fits : w.length ≤ 2 ^ pads.length)
    (t : σ) :
    ∃ r, (proveRounds ts pads w qL (dot qL w) t : Exec String _) = .ok r ∧
      RoundsSpec ts pads w qL t r := by
  induction pads generalizing w qL t with
  | nil =>
    have one : w.length = 1 := by
      simp only [List.length_nil, pow_zero] at fits
      omega
    obtain ⟨a, rfl⟩ := List.length_eq_one_iff.mp one
    obtain ⟨b, rfl⟩ := List.length_eq_one_iff.mp (size.trans one)
    refine ⟨_, rfl, ⟨rfl, rfl, ?_, ?_, ?_, rfl, fun _ _ denotes => denotes⟩⟩
    · simp [monomials, tensors, tensor]
    · simp [monomials, tensors, tensor]
    · simp [monomials, tensors, tensor, mul_comm]
  | cons roundPads pads ih =>
    obtain ⟨m, z, t', challenge, coefficient0, coefficient1, ran⟩ :=
      round_eq ts size nonempty roundPads (dot qL w) t
    have sizeW := length_foldPairs z w
    have sizeQ := length_foldPairs z qL
    -- The next claim is the inner product of the bound vectors.
    have next : dot qL w * (z * z) + (1 - z * z) * (pairSums qL w).1 +
        z * ((pairSums qL w).2 - dot qL w) = dot (foldPairs z qL) (foldPairs z w) := by
      rw [dot_foldPairs z size]
      ring
    rw [List.length_cons, pow_succ] at fits
    have folded : (foldPairs z qL).length = (foldPairs z w).length := by rw [sizeW, sizeQ, size]
    obtain ⟨r, rest, spec⟩ := ih folded (by omega) (by omega) t'
    refine ⟨⟨m :: r.rounds, z :: r.pointL, r.w, r.qL, r.claim, r.t⟩, ?_,
      ⟨?_, ?_, ?_, ?_, ?_, ?_, ?_⟩⟩
    · rw [proveRounds, ran, ok_bind]
      simp only [next, rest, ok_bind, pure_eq_ok]
    · rw [List.length_cons, spec.rounds, List.length_cons]
    · rw [List.length_cons, spec.pointL, List.length_cons]
    · rw [spec.boundW, dot_monomials_cons]
    · rw [spec.boundQ, dot_monomials_cons]
    · rw [spec.claim, dot_monomials_cons, dot_monomials_cons]
    · simp only [deriveRounds, challenge, spec.derived]
    · intro allPads layer i layerPads expr isLayer left denotes
      obtain ⟨isRound, after⟩ := of_drop_eq_cons left
      refine spec.symbolic isLayer after ?_
      have stepped := denotes_round denotes isLayer isRound m.coefficients z
      rw [coefficient0, coefficient1] at stepped
      rwa [← next, mul_comm (dot qL w)]

/-! ### One layer -/

/-- What the assertions of a layer say is zero. -/
def assertionValues (w : List E) (terms : List (Term E)) : List E :=
  (terms.filter fun term => term.k = 0).map (Term.product w)

theorem weightedSum_values {cs : List E} (count : cs.length = assertionCount terms) :
    (weightedSum (coefficients a terms cs) terms fun term =>
      w.getD term.h1.toNat 0 * w.getD term.h0.toNat 0) =
      (terms.map fun term => term.k * a.getD term.g.toNat 0 * term.product w).sum +
        dot cs (assertionValues w terms) := by
  unfold weightedSum assertionValues
  unfold assertionCount at count
  induction terms generalizing cs with
  | nil => simp
  | cons term terms ih =>
    rw [coefficients, List.map_cons, List.map_cons, List.sum_cons, Term.product,
      mul_comm (w.getD term.h0.toNat 0)]
    by_cases zero : term.k = 0
    · rw [List.countP_cons_of_pos (by simpa using zero)] at count
      obtain ⟨c, cs, rfl⟩ := List.exists_cons_of_length_eq_add_one count
      rw [if_pos zero, List.filter_cons_of_pos (by simpa using zero), List.map_cons, dot_cons,
        dot_cons, List.headD_cons, List.tail_cons, ih (by simpa using count), Term.product, zero]
      ring
    · rw [List.countP_cons_of_neg (by simpa using zero)] at count
      rw [if_neg zero, List.filter_cons_of_neg (by simpa using zero), dot_cons, ih count]
      ring

/-- What a layer returns: weights and a claim on its inputs, the same challenges and weights in the
reduction, and symbolic claims that denote what they stand for. -/
structure LayerSpec (ts : Transcript σ E) (index : Nat) (layer : Layer) (raw : RawCircuit E)
    (w outputs a : List E) (pads : LayerProof E) (t : σ) (result : LayerResult σ E) : Prop where
  rounds : result.proof.rounds.length = pads.rounds.length
  pointL : result.proof.rounds.length = result.challenges.pointL.length
  weights : result.a.length = layer.nw
  claim : result.claim = dot w result.a
  derived : (deriveLayer ts index result.proof raw a t : Exec String _) =
    .ok (result.challenges, result.a, result.t)
  recorded : ∀ {allPads : SumcheckProof E} {expr : PadExpression E},
    allPads.layers[index]? = some pads → expr.Denotes (padValue allPads) (dot outputs a) →
    ((expr.runRounds index 0 result.proof.rounds result.challenges.pointL).subtractClaimProduct
      index result.proof.claims).Denotes (padValue allPads) (pads.claims.1 * pads.claims.2)
  next : ∀ {allPads : SumcheckProof E}, allPads.layers[index]? = some pads →
    (PadExpression.claimNext index result.proof.claims result.challenges.alpha).Denotes (padValue allPads)
      result.claim

/-- A layer whose vectors fit its proofs. -/
structure LayerFits (layer : Layer) : Prop where
  wires : 0 < layer.nw
  nw : layer.nw ≤ 2 ^ layer.logw
  logw : Longfellow.SaneLogw layer.logw

/-- The two vectors of a layer: its terms bound with a witness, and at every point the weights of the
combined claim. -/
theorem vectors_spec (fits : LayerFits layer) {cs : List E} (width : w.length = layer.nw)
    (expands : (layer.terms constants : Exec String _) = .ok terms)
    (count : cs.length = assertionCount terms)
    (inside : ∀ term ∈ terms, (term.k ≠ 0 → term.g.toNat < a.length) ∧
      term.h0.toNat < w.length ∧ term.h1.toNat < w.length) :
    ∃ q, (bindR layer constants a cs w : Exec String _) = .ok q ∧ q.length = layer.nw ∧
      dot q w = (weightedSum (coefficients a terms cs) terms fun term =>
        w.getD term.h1.toNat 0 * w.getD term.h0.toNat 0) ∧
      ∀ (pointL : List E) (alpha : E), pointL.length = layer.logw →
        ∃ aNext, (weightsNext layer constants a cs pointL alpha : Exec String _) = .ok aNext ∧
          aNext.length = layer.nw ∧ dot aNext w = dot (monomials pointL layer.nw) w +
            alpha * dot (monomials pointL layer.nw) q := by
  obtain ⟨q, boundR, sizeQ, valueQ⟩ := bindWires_spec Term.h0 Term.h1 (a := a) (b := w) expands
    count fun term member =>
      ⟨(inside term member).1, width ▸ (inside term member).2.1, (inside term member).2.2⟩
  refine ⟨q, boundR, sizeQ, valueQ w width, fun pointL alpha sizeP => ?_⟩
  set m := monomials pointL layer.nw with m_eq
  have sizeM : m.length = layer.nw := length_monomials _ _
  obtain ⟨qR, boundL, sizeR, valueR⟩ := bindWires_spec Term.h1 Term.h0 (a := a) (b := m) expands
    count fun term member => ⟨(inside term member).1, width ▸ (inside term member).2.2,
      sizeM ▸ width ▸ (inside term member).2.1⟩
  have other : dot qR w = dot m q := by
    rw [dot_comm m, valueR w width, valueQ m sizeM]
    unfold weightedSum
    simp only [mul_comm]
  refine ⟨List.zipWith (fun yi xi => yi + alpha * xi) m qR, ?_, by simp [sizeM, sizeR], ?_⟩
  · rw [weightsNext, weights_eq fits.logw sizeP fits.nw, ok_bind, bindL, boundL, ok_bind,
      Blas.axpy, Blas.elementwise_eq (sizeM.trans sizeR.symm)]
  · rw [dot_axpy _ _ (sizeR.trans sizeM.symm), other]

variable {outputs : List E}

/-- **One layer.** -/
theorem proveLayer_spec (ts : Transcript σ E) {index : Nat}
    (isLayer : raw.layers[index]? = some layer) (fits : LayerFits layer)
    (width : w.length = layer.nw)
    (evaluated : evalQuad .v2 a.length w layer raw.constants = .ok outputs) {pads : LayerProof E}
    (shape : pads.rounds.length = layer.logw) (t : σ) :
    ∃ result, (proveLayer ts index w pads raw a (dot outputs a) t : Exec String _) = .ok result ∧
      LayerSpec ts index layer raw w outputs a pads t result := by
  obtain ⟨terms, expands, _, holds, value⟩ := evalQuad_spec evaluated
  -- The coefficients of the assertions, and the witness bound with them.
  set sampled := sampleAssertions ts terms (ts.writeBytes (leBytes 8 index)
    (ts.writeBytes (ascii "single-hand-assertions") t)) with sampled_eq
  have sampling : (assertionWeights ts layer raw.constants index t : Exec String _) =
      .ok sampled := by
    rw [assertionWeights, expands, ok_bind, pure_eq_ok]
  have count : sampled.1.length = assertionCount terms := length_sampleAssertions ..
  obtain ⟨qL, boundR, sizeQ, valueQ, combined⟩ := vectors_spec fits width expands count
    fun term member => ⟨(holds term member).g, (holds term member).h0, (holds term member).h1⟩
  have claim : dot outputs a = dot qL w := by
    have vanish : ∀ s ∈ assertionValues w terms, s = 0 := by
      intro s member
      obtain ⟨term, isMember, rfl⟩ := List.mem_map.mp member
      obtain ⟨isTerm, zero⟩ := List.mem_filter.mp isMember
      exact (holds term isTerm).asserts (by simpa using zero)
    rw [valueQ, weightedSum_values count, value a rfl, dot_comm sampled.1,
      dot_eq_zero_of_forall _ vanish, add_zero]
  -- The rounds.
  obtain ⟨r, ran, spec⟩ := proveRounds_spec ts pads.rounds (sizeQ.trans width.symm)
    (width ▸ fits.wires) (by rw [width, shape]; exact fits.nw) sampled.2
  rw [← claim] at ran
  have sizeP : r.pointL.length = layer.logw := spec.pointL.trans shape
  set mL := monomials r.pointL layer.nw with mL_eq
  have sizeM : mL.length = layer.nw := length_monomials _ _
  set claimA := dot mL w with claimA_eq
  set claimB := dot mL qL with claimB_eq
  have scalarA : (asScalar r.w : Exec String _) = .ok claimA := by
    rw [spec.boundW, width]
    rfl
  have scalarB : (asScalar r.qL : Exec String _) = .ok claimB := by
    rw [spec.boundQ, sizeQ]
    rfl
  have product : r.claim = claimA * claimB := by rw [spec.claim, width, sizeQ]
  set masked := (claimA - pads.claims.1, claimB - pads.claims.2) with masked_eq
  set ended := endLayer ts masked r.t with ended_eq
  have proved : (proveDotProduct ts w qL pads (dot outputs a) sampled.2 : Exec String _) =
      .ok (⟨r.rounds, masked⟩, ⟨r.pointL, ended.1⟩, claimA + ended.1 * claimB, ended.2) := by
    rw [proveDotProduct, ran, ok_bind, scalarA, ok_bind, scalarB, ok_bind, ensure_of product,
      ok_bind]
    rfl
  -- The weights of the combined claim.
  obtain ⟨aNext, weighted, sizeN, carried⟩ := combined r.pointL ended.1 sizeP
  refine ⟨⟨⟨r.rounds, masked⟩, ⟨r.pointL, ended.1⟩, aNext, claimA + ended.1 * claimB, ended.2⟩,
    ?_, ⟨spec.rounds, spec.rounds.trans spec.pointL.symm, sizeN, ?_, ?_, ?_, ?_⟩⟩
  · rw [proveLayer, getAt_eq_ok.mpr isLayer, ok_bind, ensure_of fits.wires, ok_bind,
      ensure_of width, ok_bind, sampling, ok_bind]
    simp only [boundR, ok_bind, proved, weighted, pure_eq_ok]
  · rw [dot_comm, carried]
  · rw [deriveLayer, getAt_eq_ok.mpr isLayer, ok_bind, ensure_of fits.wires, ok_bind, sampling,
      ok_bind]
    simp only [spec.derived, ← ended_eq, weighted, ok_bind, pure_eq_ok]
  · intro allPads expr padded denotes
    rw [claim] at denotes
    have last := spec.symbolic padded (List.drop_zero ..) denotes
    have recorded := denotes_subtractClaimProduct last padded masked
    have cancels : r.claim - (masked.1 + pads.claims.1) * (masked.2 + pads.claims.2) +
        pads.claims.1 * pads.claims.2 = pads.claims.1 * pads.claims.2 := by
      rw [product, masked_eq]
      ring
    rwa [cancels] at recorded
  · intro allPads padded
    have next := denotes_claimNext padded masked ended.1
    have restored : masked.1 + pads.claims.1 + ended.1 * (masked.2 + pads.claims.2) =
        claimA + ended.1 * claimB := by
      rw [masked_eq]
      ring
    rwa [restored] at next

/-! ### All layers -/

/-- The number of inputs of the last of the layers. -/
def lastWidth : Nat → List Layer → Nat
  | nv, [] => nv
  | _, layer :: layers => lastWidth layer.nw layers

theorem length_outputs {messages : EvalMessages E} {nv : Nat} {layers : List Layer}
    {ws : List (List E)} {inputs : List E}
    (evaluates : Evaluates messages constants nv layers ws outputs inputs)
    (width : inputs.length = lastWidth nv layers) : outputs.length = nv := by
  cases layers with
  | nil =>
    obtain ⟨_, rfl⟩ := evaluates
    exact width
  | cons layer layers =>
    obtain ⟨w, rest, _, evaluated, _⟩ := evaluates
    obtain ⟨_, _, size, _⟩ := evalQuad_spec evaluated
    exact size

/-- What the layers from an index on return. -/
structure LayersSpec (ts : Transcript σ E) (raw : RawCircuit E) (pads : SumcheckProof E)
    (index : Nat) (layers : List Layer) (padsLeft : List (LayerProof E)) (outputs inputs a : List E)
    (t : σ) (proofs : List (LayerProof E)) (challenges : List (LayerChallenges E)) (aNext : List E)
    (t' : σ) : Prop where
  shape : List.Forall₂ (fun layer (proof : LayerProof E) => proof.rounds.length = layer.logw)
    layers proofs
  count : challenges.length = proofs.length
  weights : aNext.length = inputs.length
  derived : (deriveLayers ts raw index proofs a t : Exec String _) = .ok (challenges, aNext, t')
  built : ∀ (done : List (LayerProof E)) {expr : PadExpression E}, done.length = index →
    expr.Denotes (padValue pads) (dot outputs a) → ∃ exprs last,
      (buildLayers ⟨done ++ proofs⟩ index challenges expr : Exec String _) = .ok (exprs, last) ∧
      exprs.length = layers.length ∧ last.Denotes (padValue pads) (dot inputs aNext) ∧
      layerResiduals pads exprs padsLeft = .ok (List.replicate layers.length 0)

/-- **The layers from an index on**, by induction over them. -/
theorem proveLayers_spec (ts : Transcript σ E) {pads : SumcheckProof E} {layers : List Layer}
    {padsLeft : List (LayerProof E)} {index : Nat} (isLayers : raw.layers.drop index = layers)
    (isPads : pads.layers.drop index = padsLeft)
    (shape : List.Forall₂ (fun layer (p : LayerProof E) => p.rounds.length = layer.logw)
      layers padsLeft) (fits : ∀ layer ∈ layers, LayerFits layer) {ws : List (List E)}
    {inputs : List E} (evaluates : Evaluates .v2 raw.constants a.length layers ws outputs inputs)
    (width : inputs.length = lastWidth a.length layers) (t : σ) :
    ∃ proofs challenges aNext t',
      (proveLayers ts pads raw index ws a (dot outputs a) t : Exec String _) =
        .ok (proofs, challenges, aNext, t') ∧
      LayersSpec ts raw pads index layers padsLeft outputs inputs a t proofs challenges aNext t' := by
  induction shape generalizing index ws outputs a t with
  | nil =>
    obtain ⟨rfl, rfl⟩ := evaluates
    exact ⟨[], [], a, t, rfl, ⟨.nil, rfl, width.symm, rfl, fun _ _ _ denotes =>
      ⟨[], _, rfl, rfl, denotes, rfl⟩⟩⟩
  | @cons layer layerPads layers padsLeft rounds shape ih =>
    obtain ⟨w, rest, rfl, evaluated, evaluates⟩ := evaluates
    obtain ⟨isLayer, layersAfter⟩ := of_drop_eq_cons isLayers
    obtain ⟨isPad, padsAfter⟩ := of_drop_eq_cons isPads
    have widthW : w.length = layer.nw := length_outputs evaluates width
    obtain ⟨result, ran, spec⟩ := proveLayer_spec ts isLayer (fits layer (List.mem_cons_self ..))
      widthW evaluated rounds t
    rw [← spec.weights] at evaluates
    have width' : inputs.length = lastWidth result.a.length layers := by
      rw [spec.weights]
      exact width
    obtain ⟨proofs, challenges, aNext, t', ranRest, specRest⟩ := ih layersAfter padsAfter
      (fun other member => fits other (List.mem_cons_of_mem _ member)) evaluates width' result.t
    refine ⟨result.proof :: proofs, result.challenges :: challenges, aNext, t', ?_,
      ⟨.cons (spec.rounds.trans rounds) specRest.shape, ?_, specRest.weights, ?_, ?_⟩⟩
    · rw [proveLayers, getAt_eq_ok.mpr isPad, ok_bind, ran, ok_bind, spec.claim, ranRest]
      rfl
    · rw [List.length_cons, specRest.count, List.length_cons]
    · rw [deriveLayers, spec.derived, ok_bind]
      simp only [specRest.derived, ok_bind, pure_eq_ok]
    · intro done expr isIndex denotes
      have denotesNext := spec.next isPad
      rw [spec.claim] at denotesNext
      obtain ⟨exprs, last, built, count, denotesLast, residuals⟩ :=
        specRest.built (done ++ [result.proof]) (by simp [isIndex]) denotesNext
      rw [List.append_assoc, List.singleton_append] at built
      have message : (done ++ result.proof :: proofs)[index]? = some result.proof := by
        rw [← isIndex, List.getElem?_append_right le_rfl, Nat.sub_self]
        rfl
      refine ⟨(expr.runRounds index 0 result.proof.rounds
        result.challenges.pointL).subtractClaimProduct index result.proof.claims :: exprs, last,
        ?_, ?_, denotesLast, ?_⟩
      · rw [buildLayers, getAt_eq_ok.mpr message, ok_bind, ensure_of spec.pointL, ok_bind]
        simp only [built, ok_bind, pure_eq_ok]
      · rw [List.length_cons, count, List.length_cons]
      · rw [layerResiduals, evaluate_of_denotes (spec.recorded isPad denotes), ok_bind, residuals,
          ok_bind, sub_self, List.length_cons, List.replicate_succ, pure_eq_ok]

/-! ### The whole run -/

/-- A circuit whose vectors fit the proofs of the protocol: every layer has a wire and no more than
its rounds can bind, and the inputs are those of its last layer. -/
structure WellFormed (raw : RawCircuit E) : Prop where
  logv : Longfellow.SaneLogw raw.logv
  noutput : raw.noutput ≤ 2 ^ raw.logv
  layers : ∀ layer ∈ raw.layers, LayerFits layer
  ninput : raw.ninput = lastWidth raw.noutput raw.layers

/-- **Completeness**: the prover returns, the reduction of its proof gives the same constraints and
the same transcript, every residual is zero, and the proof is accepted. -/
theorem proveCore_complete (ts : Transcript σ E) {raw : RawCircuit E} (wellFormed : WellFormed raw)
    {inputs : List E} (width : inputs.length = raw.ninput) {wLayers : List (List E)}
    (evaluated : evalCircuit .v2 inputs raw = .ok wLayers) {pads : SumcheckProof E}
    (shaped : pads.Shaped (geometryOf raw)) (t : σ) :
    ∃ proof constraints t', (proveCore ts wLayers pads raw t : Exec String _) =
        .ok (proof, constraints, t') ∧
      deriveConstraints ts raw proof t = .ok (constraints, t') ∧
      (∃ residuals, constraints.residuals inputs pads = .ok residuals ∧ ∀ r ∈ residuals, r = 0) ∧
      verifyCore ts inputs pads raw proof t = .ok t' := by
  obtain ⟨outputs, evaluates, zeros⟩ := evalCircuit_spec evaluated
  obtain ⟨⟨a, t₀⟩, begun⟩ : ∃ started, (begin ts raw t : Exec String _) = .ok started :=
    ⟨_, begin_eq ts wellFormed.logv wellFormed.noutput t⟩
  have sizeA : a.length = raw.noutput := by
    have same := Except.ok.inj
      (begun.symm.trans (begin_eq ts wellFormed.logv wellFormed.noutput t))
    rw [(Prod.mk.inj same).1]
    exact length_monomials _ _
  -- All outputs are zero, so the first claim is.
  have claim : dot outputs a = 0 := dot_eq_zero_of_forall a zeros
  have rounds : List.Forall₂ (fun layer (p : LayerProof E) => p.rounds.length = layer.logw)
      raw.layers pads.layers := List.forall₂_map_left_iff.mp shaped.rounds
  rw [← sizeA] at evaluates
  obtain ⟨proofs, challenges, aNext, t', ran, spec⟩ := proveLayers_spec ts (List.drop_zero ..)
    (List.drop_zero ..) rounds wellFormed.layers evaluates
    (by rw [width, wellFormed.ninput, sizeA]) t₀
  rw [claim] at ran
  have initial : (⟨0, []⟩ : PadExpression E).Denotes (padValue pads) (dot outputs a) := by
    rw [claim]
    exact Affine.denotes_constant (padValue pads) 0
  obtain ⟨exprs, last, built, count, denotes, residuals⟩ := spec.built [] rfl initial
  have shapedProof : (⟨proofs⟩ : SumcheckProof E).Shaped (geometryOf raw) :=
    ⟨List.forall₂_map_left_iff.mpr spec.shape, shaped.elements⟩
  have validPads : pads.validate (geometryOf raw) = .ok () :=
    SumcheckProof.validate_eq_ok.mpr shaped
  have validProof : (⟨proofs⟩ : SumcheckProof E).validate (geometryOf raw) = .ok () :=
    SumcheckProof.validate_eq_ok.mpr shapedProof
  have built' : (buildConstraints ⟨proofs⟩ challenges aNext : Exec String _) =
      .ok ⟨exprs, last, aNext⟩ := by
    rw [buildConstraints, ensure_of spec.count.symm, ok_bind]
    simp only [List.nil_append] at built
    rw [built]
    rfl
  have derived : deriveConstraints ts raw ⟨proofs⟩ t = .ok (⟨exprs, last, aNext⟩, t') := by
    rw [deriveConstraints, validProof, mapErr_ok, ok_bind, begun, ok_bind]
    simp only [spec.derived, ok_bind]
    rw [check_of (not_not.mpr (spec.weights.trans width)), ok_bind, built', ok_bind, pure_eq_ok]
  have weighted : (Blas.dot aNext inputs : Exec String _) = .ok (dot inputs aNext) := by
    rw [Blas.dot_eq spec.weights, dot_comm]
  have zeroResiduals : (⟨exprs, last, aNext⟩ : Constraints E).residuals inputs pads =
      .ok (List.replicate raw.layers.length 0 ++ [0]) := by
    have sameShape : ¬(pads.layers.length ≠ exprs.length ∨ inputs.length ≠ aNext.length) := by
      rw [count, rounds.length_eq, spec.weights]
      simp
    rw [Constraints.residuals, check_of sameShape, ok_bind, residuals, ok_bind,
      evaluate_of_denotes denotes, ok_bind, weighted, ok_bind, sub_self, pure_eq_ok]
  refine ⟨⟨proofs⟩, ⟨exprs, last, aNext⟩, t', ?_, derived, ⟨_, zeroResiduals, ?_⟩, ?_⟩
  · have sizeW : wLayers.length = raw.layers.length := length_inLayers evaluates
    rw [proveCore, validPads, mapErr_ok, ok_bind, ensure_of sizeW, ok_bind, begun, ok_bind]
    simp only [ran, ok_bind, built', pure_eq_ok]
  · intro r member
    rcases List.mem_append.mp member with layer | input
    · exact List.eq_of_mem_replicate layer
    · exact List.mem_singleton.mp input
  · have allZero : ∀ r ∈ List.replicate raw.layers.length (0 : E), r = 0 :=
      fun r member => List.eq_of_mem_replicate member
    rw [verifyCore, validPads, mapErr_ok, ok_bind, check_of (not_not.mpr width), ok_bind, derived,
      ok_bind]
    simp only [zeroResiduals, ok_bind, List.getLast?_append, List.getLast?_singleton,
      Option.some_or, expect, pure_eq_ok, List.dropLast_concat, check_of allZero,
      check_of trivial]

/-- A transcript that counts its operations and samples the count. -/
def countingTranscript : Transcript Nat (ZMod 7) where
  writeBytes _ t := t + 1
  writeEltField _ t := t + 1
  writeEltFieldSlice _ t := t + 1
  eltField t := ((t : ZMod 7), t + 1)

/-- A layer with one product and one assertion on two wires, and a given number of rounds. -/
def squareCircuit (logw : Nat) : RawCircuit (ZMod 7) where
  ninput := 2
  npublicInput := 1
  noutput := 1
  logv := 0
  subfieldBoundary := 0
  constants := [1, 0]
  layers := [⟨2, logw, [⟨0, 1, 1, 0⟩, ⟨0, 0xFFFFFFFF, 0, 1⟩], [[0, 1]], [0]⟩]

theorem proveCore_complete_square :
    evalCircuit .v2 [1, 0] (squareCircuit 1) = .ok [[1, 0]] ∧
    ∃ proof constraints t', (proveCore countingTranscript [[1, 0]] ⟨[⟨[⟨(3, 4)⟩], (5, 6)⟩]⟩
        (squareCircuit 1) 0 : Exec String _) = .ok (proof, constraints, t') ∧
      deriveConstraints countingTranscript (squareCircuit 1) proof 0 = .ok (constraints, t') ∧
      (∃ residuals, constraints.residuals [1, 0] ⟨[⟨[⟨(3, 4)⟩], (5, 6)⟩]⟩ = .ok residuals ∧
        ∀ r ∈ residuals, r = 0) ∧
      verifyCore countingTranscript [1, 0] ⟨[⟨[⟨(3, 4)⟩], (5, 6)⟩]⟩ (squareCircuit 1) proof 0 =
        .ok t' := by
  have shaped : (⟨[⟨[⟨(3, 4)⟩], (5, 6)⟩]⟩ : SumcheckProof (ZMod 7)).Shaped
      (geometryOf (squareCircuit 1)) := SumcheckProof.validate_eq_ok.mp (show _ = Except.ok () from rfl)
  refine ⟨rfl, proveCore_complete countingTranscript ⟨by decide, by decide, ?_, rfl⟩ rfl rfl
    shaped 0⟩
  intro layer member
  obtain rfl := List.mem_singleton.mp member
  exact ⟨by decide, by decide, by decide⟩

/-- The prover panics on a layer with more wires than its rounds can bind, although the circuit
evaluates and its indices are in range. -/
theorem proveCore_wide_layer :
    evalCircuit .v2 [1, 0] (squareCircuit 0) = .ok [[1, 0]] ∧
    (∀ layer ∈ (squareCircuit 0).layers, layer.InRange 2) ∧
    (proveCore countingTranscript [[1, 0]] ⟨[⟨[], (5, 6)⟩]⟩ (squareCircuit 0) 0 :
      Exec String _) = .error (.panic "vector length must be 1") := by
  refine ⟨rfl, ?_, rfl⟩
  intro layer member
  obtain rfl := List.mem_singleton.mp member
  decide

end Longfellow.SumcheckV2
