/-
**Completeness of the v1 sumcheck.**

On a circuit in Morton order that evaluates, with the inputs of its layers, every assignment of pads
and every way to sample challenges, the prover returns; the verifier derives the same data from its
proof on the same transcript, and accepts.

* `proveRound_spec` — **one round of one hand**: the claim stays the contraction of the wiring tensor
  with the two bound witnesses, and the order of the tensor is kept for the other hand.
-/

import Longfellow.Sumcheck.Eval
import Longfellow.SumcheckV1.Prover
import Mathlib.Data.ZMod.Basic
import Mathlib.Tactic.IntervalCases

set_option linter.unusedSectionVars false

namespace Longfellow.SumcheckV1

open Lib

variable {σ E : Type} [CommRing E] [DecidableEq E] {ts : Transcript σ E} {f : InterpolationField E}

/-! ### The round polynomial -/

variable {quad : List (Corner E)} {hand : Hand}

theorem fillRoundWeights_spec {n : Nat} {wOther : List E}
    (inside : ∀ c ∈ quad, hand.get c.h < n ∧ hand.other.get c.h < wOther.length) :
    ∃ qw, fillRoundWeights n quad wOther hand = .ok qw ∧ qw.length = n ∧
      ∀ x : List E, x.length = n → dot qw x =
        contract hand quad (fun i => x.getD i 0) (fun i => wOther.getD i 0) := by
  have start : (List.replicate n (0 : E)).length = n ∧ ∀ x : List E, x.length = n →
      dot (List.replicate n 0) x =
        contract hand [] (fun i => x.getD i 0) (fun i => wOther.getD i 0) := by simp
  refine foldlM_returns (fun done qw => qw.length = n ∧ ∀ x : List E, x.length = n → dot qw x =
    contract hand done (fun i => x.getD i 0) (fun i => wOther.getD i 0)) start ?_
  rintro done c qw before ⟨size, value⟩
  obtain ⟨here, there⟩ := inside c (before.subset (by simp))
  rw [← size] at here
  refine ⟨qw.set (hand.get c.h) (qw[hand.get c.h] + c.v * wOther[hand.other.get c.h]), ?_,
    by simpa using size, fun x sized => ?_⟩
  · rw [fillCorner, getAt_of_lt here, ok_bind, getAt_of_lt there, ok_bind, setAt_of_lt here]
  · have old : qw[hand.get c.h]? = some qw[hand.get c.h] := List.getElem?_eq_getElem here
    have entry : x[hand.get c.h]? = some (x.getD (hand.get c.h) 0) := by
      rw [List.getD_eq_getElem _ _ (by omega), List.getElem?_eq_getElem]
    rw [dot_set_add _ old entry, value x sized, contract_append, contract_cons, contract_nil,
      List.getD_eq_getElem _ _ there]
    ring

variable {w : List E}

theorem dot_bound (z : E) {q : List E} (size : q.length = w.length) :
    dot (foldWith (1 - z) z q) (foldWith (1 - z) z w) = (affineSums q w).1 +
      (dot q w - (affineSums q w).1 - (affineSums q w).1 - (affineSums q w).2) * z +
      (affineSums q w).2 * (z * z) := by
  induction q using foldWith.induct generalizing w with
  | case1 =>
    obtain rfl := List.eq_nil_of_length_eq_zero size.symm
    simp [foldWith, affineSums]
  | case2 a =>
    obtain ⟨b, rfl⟩ := List.length_eq_one_iff.mp size.symm
    simp only [foldWith, affineSums, dot_cons, dot_nil_left]
    ring
  | case3 a b rest ih =>
    obtain ⟨c, w', rfl⟩ := List.exists_cons_of_length_eq_add_one size.symm
    obtain ⟨d, w, rfl⟩ := List.exists_cons_of_length_eq_add_one (Nat.succ.inj size).symm
    have tail := ih (w := w) (by simpa using size)
    simp only [foldWith, affineSums, dot_cons, tail]
    ring

theorem contract_congr {x x' : Nat → E} (y : Nat → E)
    (same : ∀ c ∈ quad, x (hand.get c.h) = x' (hand.get c.h)) :
    contract hand quad x y = contract hand quad x' y := by
  unfold contract
  congr 1
  refine List.map_congr_left fun c member => ?_
  rw [same c member]

theorem dot_bound_eq_contract {qw wOther : List E} (z : E) (size : qw.length = w.length)
    (inside : ∀ c ∈ quad, hand.get c.h < w.length)
    (value : ∀ x : List E, x.length = w.length → dot qw x =
      contract hand quad (fun i => x.getD i 0) (fun i => wOther.getD i 0)) :
    dot (foldWith (1 - z) z qw) (foldWith (1 - z) z w) =
      contract hand (bindH z hand quad) (fun i => (foldWith (1 - z) z w).getD i 0)
        (fun i => wOther.getD i 0) := by
  set bound := foldWith (1 - z) z w with bound_eq
  have sizes : (foldWith (1 - z) z qw).length = bound.length := by
    rw [length_foldWith, bound_eq, length_foldWith, size]
  have table : (List.range bound.length).map (fun i => bound.getD i 0) = bound := by
    refine List.ext_getElem (by simp) fun i _ inBound => ?_
    rw [List.getElem_map, List.getElem_range, List.getD_eq_getElem _ _ inBound]
  have spread := dot_map_foldWith (1 - z) z (fun i => bound.getD i 0) qw
  rw [sizes, table] at spread
  rw [dot_comm, spread, dot_comm, value _ (by simp [size]), contract_bindH]
  refine contract_congr _ fun c member => ?_
  have here := inside c member
  rw [List.getD_eq_getElem _ _ (by simpa [size] using here), List.getElem_map, List.getElem_range]
  rfl

/-! ### One round of one hand -/

/-- The state before a round of a hand, with `k` bits left: the tensor is in order and indexes the
witnesses, and the claim is its contraction. -/
structure Running (hand : Hand) (k : Nat) (s : LayerState σ E) : Prop where
  ordered : Ordered hand k s.hquad
  nonempty : s.hquad ≠ []
  inside : ∀ c ∈ s.hquad, hand.get c.h < (hand.get s.w).length ∧
    hand.other.get c.h < (hand.other.get s.w).length
  fits : (hand.get s.w).length ≤ 2 ^ ((k + 1) / 2) ∧ (hand.other.get s.w).length ≤ 2 ^ (k / 2)
  sum : s.sum = contract hand s.hquad (fun i => (hand.get s.w).getD i 0)
    (fun i => (hand.other.get s.w).getD i 0)

/-- What one round does. -/
structure RoundSpec (ts : Transcript σ E) (f : InterpolationField E) (hand : Hand)
    (padPoly : RoundPoly E) (s : LayerState σ E) (r : Round E) (s' : LayerState σ E) : Prop where
  challenge : roundChallenge ts r.message s.t = (r.challenge, s'.t)
  coefficients : RoundCoefficients.new f (LagrangeBasis.new f 3) r.challenge = .ok r.coefficients
  sum : s'.sum = r.coefficients.evaluate (r.message.unmask padPoly) s.sum
  boundW : s'.w = hand.set s.w (foldWith (1 - r.challenge) r.challenge (hand.get s.w))
  boundQuad : s'.hquad = bindH r.challenge hand s.hquad

variable {s : LayerState σ E}

/-- The tensor and the witnesses after a round. -/
theorem Running.bind {k : Nat} (running : Running hand (k + 1) s) {z : E} {s' : LayerState σ E}
    (w : s'.w = hand.set s.w (foldWith (1 - z) z (hand.get s.w)))
    (quad : s'.hquad = bindH z hand s.hquad) (sum : s'.sum = contract hand (bindH z hand s.hquad)
      (fun i => (foldWith (1 - z) z (hand.get s.w)).getD i 0)
      (fun i => (hand.other.get s.w).getD i 0)) : Running hand.other k s' := by
  have half : (k + 1 + 1) / 2 = k / 2 + 1 := by omega
  obtain ⟨fits, fitsOther⟩ := running.fits
  rw [half, pow_succ] at fits
  refine ⟨quad ▸ running.ordered.bindH z, quad ▸ bindH_ne_nil running.nonempty z hand, ?_, ?_, ?_⟩
  · rw [quad, w]
    intro c member
    obtain ⟨d, isCorner, isHalf⟩ := mem_bindH member
    obtain ⟨here, there⟩ := running.inside d isCorner
    rw [isHalf, Hand.other_other, halve, Hand.get_set, Hand.get_other_set, Hand.get_set,
      Hand.get_other_set, length_foldWith]
    exact ⟨there, by omega⟩
  · rw [w, Hand.other_other, Hand.get_set, Hand.get_other_set, length_foldWith]
    exact ⟨fitsOther, by omega⟩
  · rw [sum, quad, w, contract_other, Hand.other_other, Hand.get_set, Hand.get_other_set]

variable {pad : LayerProof E}

/-- **One round of one hand.** -/
theorem proveRound_spec (ts : Transcript σ E) (lawful : f.Lawful 3) {round : Nat} {k : Nat}
    {padPoly : RoundPoly E} (running : Running hand (k + 1) s) (small : round < maxLogw)
    (isPad : (hand.get pad.hp)[round]? = some padPoly) :
    ∃ r s', proveRound ts f pad round hand s = .ok (r, s') ∧
      RoundSpec ts f hand padPoly s r s' ∧ Running hand.other k s' := by
  obtain ⟨qw, filled, size, value⟩ := fillRoundWeights_spec running.inside
  set w := hand.get s.w with w_eq
  have nonempty : w ≠ [] := by
    obtain ⟨c, member⟩ := List.exists_mem_of_ne_nil _ running.nonempty
    exact List.ne_nil_of_length_pos (Nat.zero_lt_of_lt (running.inside c member).1)
  -- The claim is the inner product with the contracted tensor.
  have claim : s.sum = dot qw w := by rw [running.sum, value w rfl]
  set a0 := (affineSums qw w).1 with a0_eq
  set a2 := (affineSums qw w).2 with a2_eq
  set values := toWire (quadRoundPoly f qw w s.sum) with values_eq
  set message := values.sub padPoly with message_eq
  obtain ⟨coefficients, ofChallenge, interpolates⟩ :=
    RoundCoefficients.new_spec lawful (roundChallenge ts message s.t).1
  set z := (roundChallenge ts message s.t).1 with z_eq
  have boundIn : (if round = 0 ∧ hand = .right then bindOutOfPlace w z else bind w z :
      Exec String _) = .ok (foldWith (1 - z) z w) := by
    rw [bindOutOfPlace_eq nonempty, bind_eq nonempty, ite_self]
  have ran : proveRound ts f pad round hand s = .ok (⟨message, coefficients, z⟩,
      ⟨hand.set s.w (foldWith (1 - z) z w), bindH z hand s.hquad,
        coefficients.evaluate values.evaluations s.sum, (roundChallenge ts message s.t).2⟩) := by
    simp only [proveRound, ← w_eq, filled, ok_bind, ensure_of small, getAt_eq_ok.mpr isPad,
      ← values_eq, ← message_eq, ← z_eq, ofChallenge, boundIn, pure_eq_ok]
  have next : coefficients.evaluate values.evaluations s.sum =
      dot (foldWith (1 - z) z qw) (foldWith (1 - z) z w) := by
    have evaluated := interpolates a0 (s.sum - a0 - a0 - a2) a2
    have total : a0 + (a0 + (s.sum - a0 - a0 - a2) + a2) = s.sum := by ring
    rw [total] at evaluated
    rw [dot_bound z size, ← claim]
    exact evaluated
  refine ⟨_, _, ran, ⟨rfl, ofChallenge, ?_, rfl, rfl⟩, running.bind rfl rfl ?_⟩
  · have unmasked : message.unmask padPoly = values.evaluations := by
      rw [message_eq, RoundPoly.unmask, RoundPoly.sub]
      simp
    rw [unmasked]
  · rw [next]
    exact dot_bound_eq_contract z size (fun c member => (running.inside c member).1) value

/-! ### The rounds of a layer -/

/-- What the rounds of a layer do: the witnesses and the tensor are bound at the sampled points, the
verifier derives the same challenges, and a symbolic claim that denotes the claim keeps doing so. -/
structure RoundsSpec (ts : Transcript σ E) (f : InterpolationField E) (pad : LayerProof E)
    (left round : Nat) (s : LayerState σ E) (r : Rounds E) (s' : LayerState σ E) : Prop where
  polys : r.polys.1.length = left ∧ r.polys.2.length = left
  coefficients : r.coefficients.1.length = left ∧ r.coefficients.2.length = left
  challenges : r.challenges.1.length = left ∧ r.challenges.2.length = left
  bound : Running .right 0 s'
  boundRight : s'.w.1 = [dot (eqWeights r.challenges.1 s.w.1.length) s.w.1]
  boundLeft : s'.w.2 = [dot (eqWeights r.challenges.2 s.w.2.length) s.w.2]
  boundQuad : s'.hquad = bindAll r.challenges.1 r.challenges.2 s.hquad
  derived : deriveRounds ts f r.polys.1 r.polys.2 s.t = .ok (r, s'.t)
  symbolic : ∀ {pads : SumcheckProof E} {index : Nat} {claim : PadExpression E},
    pads.layers[index]? = some pad → claim.Denotes (padValue pads) s.sum →
    (claim.runRounds index round r.polys.1 r.polys.2 r.coefficients.1 r.coefficients.2).Denotes
      (padValue pads) s'.sum

theorem eq_dot_eqWeights (positive : 0 < w.length) (fits : w.length ≤ 2 ^ 0) :
    w = [dot (eqWeights [] w.length) w] := by
  obtain ⟨a, rfl⟩ := List.length_eq_one_iff.mp (le_antisymm fits positive)
  simp [eqWeights, tensors, tensor]

/-- **The rounds of a layer.** -/
theorem proveRounds_spec (ts : Transcript σ E) (lawful : f.Lawful 3) {left round : Nat}
    (running : Running .right (2 * left) s) (small : round + left ≤ maxLogw)
    (pads : pad.Rounds (round + left)) :
    ∃ r s', proveRounds ts f pad left round s = .ok (r, s') ∧
      RoundsSpec ts f pad left round s r s' := by
  induction left generalizing round s with
  | zero =>
    obtain ⟨c, member⟩ := List.exists_mem_of_ne_nil _ running.nonempty
    obtain ⟨here, there⟩ := running.inside c member
    obtain ⟨fitsRight, fitsLeft⟩ := running.fits
    exact ⟨_, s, rfl, ⟨⟨rfl, rfl⟩, ⟨rfl, rfl⟩, ⟨rfl, rfl⟩, running,
      eq_dot_eqWeights (Nat.zero_lt_of_lt here) fitsRight,
      eq_dot_eqWeights (Nat.zero_lt_of_lt there) fitsLeft, rfl, rfl, fun _ denotes => denotes⟩⟩
  | succ left ih =>
    obtain ⟨padsRight, padsLeft⟩ := pads
    have isRight : (Hand.right.get pad.hp)[round]? = some (pad.hp.1.get ⟨round, by omega⟩) :=
      List.getElem?_eq_getElem _
    have isLeft : (Hand.left.get pad.hp)[round]? = some (pad.hp.2.get ⟨round, by omega⟩) :=
      List.getElem?_eq_getElem _
    obtain ⟨right, s1, ranRight, specRight, runningLeft⟩ :=
      proveRound_spec ts lawful (k := 2 * left + 1) running (by omega) isRight
    have runningLeft : Running .left (2 * left + 1) s1 := runningLeft
    obtain ⟨leftRound, s2, ranLeft, specLeft, runningRight⟩ :=
      proveRound_spec ts lawful runningLeft (by omega) isLeft
    obtain ⟨rest, s3, ranRest, spec⟩ := ih runningRight (show round + 1 + left ≤ maxLogw by omega)
      ⟨by omega, by omega⟩
    -- The right hand is bound by the first round of the pair, the left hand by the second.
    have w1 : s2.w.1 = foldWith (1 - right.challenge) right.challenge s.w.1 := by
      rw [specLeft.boundW, specRight.boundW]
      rfl
    have w2 : s2.w.2 = foldWith (1 - leftRound.challenge) leftRound.challenge s.w.2 := by
      rw [specLeft.boundW, specRight.boundW]
      rfl
    refine ⟨Rounds.cons right leftRound rest, s3, ?_, ⟨?_, ?_, ?_, spec.bound, ?_, ?_, ?_, ?_, ?_⟩⟩
    · rw [proveRounds, ranRight, ok_bind]
      simp only [ranLeft, ranRest, ok_bind, pure_eq_ok]
    · exact ⟨congrArg (· + 1) spec.polys.1, congrArg (· + 1) spec.polys.2⟩
    · exact ⟨congrArg (· + 1) spec.coefficients.1, congrArg (· + 1) spec.coefficients.2⟩
    · exact ⟨congrArg (· + 1) spec.challenges.1, congrArg (· + 1) spec.challenges.2⟩
    · rw [spec.boundRight, w1]
      exact congrArg (fun x => [x]) (dot_eqWeights_cons _ _ _).symm
    · rw [spec.boundLeft, w2]
      exact congrArg (fun x => [x]) (dot_eqWeights_cons _ _ _).symm
    · rw [spec.boundQuad, specLeft.boundQuad, specRight.boundQuad]
      rfl
    · simp only [Rounds.cons, deriveRounds, specRight.challenge, specRight.coefficients,
        specLeft.challenge, specLeft.coefficients, spec.derived, ok_bind, pure_eq_ok]
    · intro allPads index claim isLayer denotes
      have afterRight := denotes_round denotes isLayer isRight right.message right.coefficients
      rw [← specRight.sum] at afterRight
      have afterLeft := denotes_round afterRight isLayer isLeft leftRound.message
        leftRound.coefficients
      rw [← specLeft.sum] at afterLeft
      exact spec.symbolic isLayer afterLeft

/-! ### One layer -/

/-- A pair of claims on a vector: for every combination there is a table of weights, and the weighted
vector is the combination of the claims. -/
def Claims (bindings : Bindings E) (nv : Nat) (claims : E × E) (v : List E) : Prop :=
  ∀ alpha, ∃ table, (eq2 bindings.logv nv bindings.challenges.1 bindings.challenges.2 alpha :
    Exec String _) = .ok table ∧ table.length = nv ∧ dot table v = claims.1 + alpha * claims.2

/-- Bindings with the same weights. -/
structure SameWeights (bindings other : Bindings E) : Prop where
  logv : bindings.logv = other.logv
  nv : bindings.nv = other.nv
  weights : ∀ n alpha, (eq2 bindings.logv n bindings.challenges.1 bindings.challenges.2 alpha :
    Exec String _) = eq2 other.logv n other.challenges.1 other.challenges.2 alpha

theorem SameWeights.refl (bindings : Bindings E) : SameWeights bindings bindings :=
  ⟨rfl, rfl, fun _ _ => rfl⟩

variable {bindings : Bindings E}

theorem SameWeights.bindG_eq {other : Bindings E} (same : SameWeights bindings other)
    (layer : Layer) (constants : List E) (alpha beta : E) :
    (bindG layer constants bindings.logv bindings.nv bindings.challenges.1 bindings.challenges.2
      alpha beta : Exec String _) = bindG layer constants other.logv other.nv other.challenges.1
        other.challenges.2 alpha beta := by
  unfold bindG
  rw [same.weights, same.nv, same.logv]

/-- The terms of a layer with `nv` outputs that the protocol can bind: not empty, in Morton order,
with outputs in range, and not all at the operands that mark the start. -/
structure TermsSorted (nv : Nat) (terms : List (Term E)) : Prop where
  nonempty : terms ≠ []
  outputs : ∀ term ∈ terms, term.g.toNat < nv
  sorted : terms.Pairwise fun s t =>
    Morton.cmp s.h0.toNat s.h1.toNat t.h0.toNat t.h1.toNat ≠ .gt
  start : ∀ first, terms.head? = some first → ¬(first.h0.toNat = 2 ^ 32 - 1 ∧
    first.h1.toNat = 2 ^ 32 - 1)

theorem sum_termWeight {table : List E} {n : Nat} {terms : List (Term E)} (beta : E)
    (holds : ∀ term ∈ terms, TermHolds w n term) :
    (terms.map fun term => termWeight table beta term *
        (w.getD (operands term).1 0 * w.getD (operands term).2 0)).sum =
      (terms.map fun term => term.k * table.getD term.g.toNat 0 * term.product w).sum := by
  refine congrArg List.sum (List.map_congr_left fun term member => ?_)
  rw [termWeight, Term.product]
  by_cases zero : term.k = 0
  · have vanishes := (holds term member).asserts zero
    rw [operands, vanishes, mul_zero, mul_zero]
  · rw [if_neg zero]
    rfl

/-- What a layer does: its proof has the rounds of its width, its claims are claims on its inputs, the
verifier derives the same data, and its relation holds. -/
structure LayerSpec (ts : Transcript σ E) (f : InterpolationField E) (clr : Layer) (w : List E)
    (pad : LayerProof E) (hquad : List (Corner E)) (sum : E) (t : σ) (r : LayerResult σ E) :
    Prop where
  rounds : r.proof.Rounds clr.logw
  bindings : r.bindings.logv = clr.logw ∧ r.bindings.nv = clr.nw
  claims : Claims r.bindings w.length r.claims w
  unmasked : r.claims = (r.proof.claims.1 + pad.claims.1, r.proof.claims.2 + pad.claims.2)
  derived : ∃ derivedRounds t', deriveRounds ts f r.proof.hp.1 r.proof.hp.2 t =
    .ok (derivedRounds, t') ∧ derivedRounds.coefficients = r.data.rounds ∧
    derivedRounds.challenges = r.bindings.challenges ∧
    (scalar (bindAll derivedRounds.challenges.1 derivedRounds.challenges.2 hquad) :
      Exec String _) = .ok r.data.boundQuad ∧ endLayer ts r.proof.claims t' = r.t
  counts : r.data.rounds.1.length = clr.logw ∧ r.data.rounds.2.length = clr.logw
  relation : ∀ {pads : SumcheckProof E} {index : Nat} {claim : PadExpression E},
    pads.layers[index]? = some pad → claim.Denotes (padValue pads) sum →
    (LayerRelation.new index (claim.runRounds index 0 r.proof.hp.1 r.proof.hp.2 r.data.rounds.1
      r.data.rounds.2) r.proof.claims r.data.boundQuad).evaluate pads pad = .ok 0

variable {claims : E × E}

/-- **One layer**, from a claim that is the contraction of its wiring tensor. -/
theorem layer_spec (ts : Transcript σ E) (lawful : f.Lawful 3) {clr : Layer}
    {hquad : List (Corner E)} (alpha : E) (t : σ) (sane : SaneLogw clr.logw)
    (positive : 0 < w.length) (running : Running .right (2 * clr.logw)
      (⟨(w, w), hquad, claims.1 + alpha * claims.2, t⟩ : LayerState σ E))
    (pads : pad.Rounds clr.logw) :
    ∃ r, layer ts f clr.logw clr.nw w pad hquad alpha claims t = .ok r ∧ r.data.alpha = alpha ∧
      LayerSpec ts f clr w pad hquad (claims.1 + alpha * claims.2) t r := by
  have small : 0 + clr.logw ≤ maxLogw := by
    rw [Nat.zero_add]
    exact sane.1
  have fits : w.length ≤ 2 ^ clr.logw := by
    have half : 2 * clr.logw / 2 = clr.logw := by omega
    exact half ▸ running.fits.2
  obtain ⟨rounds, s, ran, spec⟩ := proveRounds_spec ts lawful running small
    ((Nat.zero_add clr.logw).symm ▸ pads)
  obtain ⟨quad, corner, ranScalar⟩ := spec.bound.ordered.scalar_eq (ε := String) spec.bound.nonempty
  set claim0 := dot (eqWeights rounds.challenges.1 w.length) w with claim0_eq
  set claim1 := dot (eqWeights rounds.challenges.2 w.length) w with claim1_eq
  have product : s.sum = claim0 * claim1 * quad := by
    rw [spec.bound.sum, corner]
    simp only [contract, Hand.get, Hand.other, List.map_cons, List.map_nil, List.sum_cons,
      List.sum_nil, spec.boundRight, spec.boundLeft, List.getD_cons_zero]
    ring
  refine ⟨⟨⟨rounds.polys, (claim0 - pad.claims.1, claim1 - pad.claims.2)⟩,
    ⟨clr.logw, clr.nw, rounds.challenges⟩, (claim0, claim1), ⟨rounds.coefficients, quad, alpha⟩,
    endLayer ts (claim0 - pad.claims.1, claim1 - pad.claims.2) s.t⟩, ?_, rfl, ?_⟩
  · rw [layer, ensure_of sane, ok_bind, ensure_of fits, ok_bind, ran, ok_bind]
    simp only [spec.boundRight, spec.boundLeft, asScalar_singleton, ok_bind, ranScalar, ← claim0_eq,
      ← claim1_eq, ensure_of product, pure_eq_ok]
  refine ⟨spec.polys, ⟨rfl, rfl⟩, fun alpha => ?_, ?_, ?_, spec.coefficients, ?_⟩
  · obtain ⟨table, filled, size, value⟩ := eq2_eq (ε := String) spec.challenges.1 spec.challenges.2
      positive fits alpha
    exact ⟨table, filled, size, value w⟩
  · simp
  · exact ⟨rounds, s.t, spec.derived, rfl, rfl, spec.boundQuad ▸ ranScalar, rfl⟩
  · intro allPads index claim isLayer denotes
    rw [LayerRelation.evaluate_eq (spec.symbolic isLayer denotes) isLayer, product]
    congr 1
    ring

variable {messages : EvalMessages E} {constants outputs : List E}

/-- **The wiring tensor of a layer that evaluates**: its contraction with the witness is the claim on
the outputs. -/
theorem bindG_running {clr : Layer} (alpha beta : E) (t : σ) (sane : SaneLogw bindings.logv)
    (evaluated : evalQuad messages bindings.nv w clr constants = .ok outputs)
    (claimed : Claims bindings outputs.length claims outputs)
    (sorted : ∀ terms, (clr.terms constants : Exec String _) = .ok terms →
      TermsSorted bindings.nv terms) (fits : w.length ≤ 2 ^ clr.logw) :
    0 < w.length ∧ ∃ hquad, (bindG clr constants bindings.logv bindings.nv bindings.challenges.1
      bindings.challenges.2 alpha beta : Exec String _) = .ok hquad ∧
      Running .right (2 * clr.logw)
        (⟨(w, w), hquad, claims.1 + alpha * claims.2, t⟩ : LayerState σ E) := by
  obtain ⟨terms, expands, size, holds, value⟩ := evalQuad_spec evaluated
  obtain ⟨nonempty, inRange, order, start⟩ := sorted terms expands
  obtain ⟨table, weights, sizeT, combined⟩ := claimed alpha
  rw [size] at weights sizeT
  have half : (2 * clr.logw + 1) / 2 = clr.logw ∧ 2 * clr.logw / 2 = clr.logw := by omega
  have bindable : Bindable table (2 * clr.logw) terms := by
    refine ⟨fun term member => sizeT ▸ inRange term member, fun term member => ?_, order, ?_⟩
    · have here := (holds term member).h0.trans_le fits
      have there := (holds term member).h1.trans_le fits
      rw [Morton.Fits, half.1, half.2]
      exact ⟨here, there⟩
    · intro first isFirst same
      exact start first isFirst (Prod.ext_iff.mp same)
  obtain ⟨hquad, bound, some, ordered, operandsOf, contracted⟩ :=
    bindG_spec alpha beta sane weights expands bindable nonempty
  obtain ⟨term, member⟩ := List.exists_mem_of_ne_nil _ nonempty
  refine ⟨Nat.zero_lt_of_lt (holds term member).h0, hquad, bound, ordered, some, ?_, ?_, ?_⟩
  · intro c isCorner
    obtain ⟨t, isTerm, isOperands⟩ := (operandsOf _).mp ⟨c, isCorner, rfl⟩
    rw [← isOperands]
    exact ⟨(holds t isTerm).h0, (holds t isTerm).h1⟩
  · rw [half.1, half.2]
    exact ⟨fits, fits⟩
  · have sum := contracted (fun i => w.getD i 0) (fun i => w.getD i 0)
    rw [sum_termWeight beta holds, ← value table sizeT, dot_comm, combined] at sum
    exact sum.symm

/-! ### All layers -/

/-- The number of inputs of a layer: the inputs of the circuit for the last one. -/
def inputWidth (ninput : Nat) (layer : Layer) : List Layer → Nat
  | [] => ninput
  | _ :: _ => layer.nw

/-- Layers, the first of them with `nv` outputs, whose terms the protocol can bind and whose inputs
the rounds can bind. -/
def LayersFit (constants : List E) (ninput : Nat) : Nat → List Layer → Prop
  | _, [] => True
  | nv, layer :: later =>
    (∀ terms, (layer.terms constants : Exec String _) = .ok terms → TermsSorted nv terms) ∧
    inputWidth ninput layer later ≤ 2 ^ layer.logw ∧ LayersFit constants ninput layer.nw later

/-- What the layers from index `index` on do: the verifier derives the same data, the relations of the
layers hold, and what is left is a pair of claims on the inputs. -/
structure LayersSpec (ts : Transcript σ E) (f : InterpolationField E) (constants inputs : List E)
    (pads : SumcheckProof E) (index : Nat) (layers : List Layer) (padsLeft : List (LayerProof E))
    (bindings : Bindings E) (claims : E × E) (t : σ) (r : LayersResult σ E) : Prop where
  shape : List.Forall₂ (fun layer (proof : LayerProof E) => proof.Rounds layer.logw) layers r.layers
  count : r.data.length = layers.length
  derived : ∀ other, SameWeights bindings other → ∃ last,
    deriveLayers ts f constants layers r.layers other t = .ok (r.data, last, r.t) ∧
    SameWeights r.bindings last
  final : ∃ claimsIn, Claims r.bindings inputs.length claimsIn inputs ∧
    ∀ {before : List (LayerProof E)}, before.length = index → Unmasked pads before claims →
      Unmasked pads (before ++ r.layers) claimsIn ∧
      ∃ relations, verifyLayers ⟨before ++ r.layers⟩ index r.data = .ok relations ∧
        relations.length = layers.length ∧
        layerResiduals pads relations padsLeft = .ok (List.replicate layers.length 0)

variable {inputs : List E} {ws : List (List E)}

theorem length_inputs {layer : Layer} {later : List Layer}
    (evaluates : Evaluates messages constants layer.nw later ws w inputs) :
    w.length = inputWidth inputs.length layer later := by
  cases later with
  | nil =>
    obtain ⟨_, rfl⟩ := evaluates
    rfl
  | cons next later =>
    obtain ⟨_, _, _, evaluated, _⟩ := evaluates
    obtain ⟨_, _, size, _⟩ := evalQuad_spec evaluated
    exact size

/-- **All layers**, from a pair of claims on their outputs. -/
theorem proveLayers_spec (ts : Transcript σ E) (lawful : f.Lawful 3) {pads : SumcheckProof E}
    {index : Nat} {layers : List Layer} {padsLeft : List (LayerProof E)}
    (isPads : pads.layers.drop index = padsLeft)
    (shape : List.Forall₂ (fun layer (pad : LayerProof E) => pad.Rounds layer.logw) layers padsLeft)
    (sane : ∀ layer ∈ layers, SaneLogw layer.logw) (saneV : SaneLogw bindings.logv)
    (fits : LayersFit constants inputs.length bindings.nv layers)
    (evaluates : Evaluates messages constants bindings.nv layers ws outputs inputs)
    (claimed : Claims bindings outputs.length claims outputs) (t : σ) :
    ∃ r, proveLayers ts f constants layers (ws.map normalize) padsLeft bindings claims t = .ok r ∧
      LayersSpec ts f constants inputs pads index layers padsLeft bindings claims t r := by
  induction shape generalizing index bindings ws outputs claims t with
  | nil =>
    obtain ⟨rfl, rfl⟩ := evaluates
    refine ⟨_, rfl, ⟨.nil, rfl, fun other same => ⟨other, rfl, same⟩, claims, claimed, ?_⟩⟩
    intro before _ unmasked
    rw [List.append_nil]
    exact ⟨unmasked, [], rfl, rfl, rfl⟩
  | @cons layer pad layers padsLeft rounds shape ih =>
    obtain ⟨w, rest, rfl, evaluated, evaluates⟩ := evaluates
    obtain ⟨sorted, width, later⟩ := fits
    obtain ⟨isPad, padsAfter⟩ := of_drop_eq_cons isPads
    have widthW : w.length ≤ 2 ^ layer.logw := length_inputs evaluates ▸ width
    have saneL := sane layer (List.mem_cons_self ..)
    set sampled := beginLayer ts t with sampled_eq
    obtain ⟨positive, hquad, bound, running⟩ := bindG_running sampled.1.1 sampled.1.2 sampled.2 saneV
      evaluated claimed sorted widthW
    obtain ⟨result, ran, alpha, spec⟩ := layer_spec ts lawful sampled.1.1 sampled.2 saneL positive
      running rounds
    obtain ⟨logv, nv⟩ := spec.bindings
    rw [← nv] at evaluates later
    obtain ⟨r, ranRest, specRest⟩ := ih padsAfter
      (fun other member => sane other (List.mem_cons_of_mem _ member)) (logv ▸ saneL) later
      evaluates spec.claims result.t
    have normal : normalize w = w := normalize_of_ne (List.ne_nil_of_length_pos positive)
    refine ⟨{ r with layers := result.proof :: r.layers, data := result.data :: r.data }, ?_,
      ⟨.cons spec.rounds specRest.shape, congrArg (· + 1) specRest.count, ?_, ?_⟩⟩
    · rw [List.map_cons, proveLayers, ← sampled_eq, normal]
      simp only [bound, ran, ranRest, ok_bind, pure_eq_ok]
    · intro other same
      obtain ⟨rounds', t', derivedRounds, coefficients, challenges, scalarQ, ended⟩ := spec.derived
      obtain ⟨last, derived, sameLast⟩ := specRest.derived _ (.refl result.bindings)
      refine ⟨last, ?_, sameLast⟩
      have next : (⟨layer.logw, layer.nw, rounds'.challenges⟩ : Bindings E) = result.bindings := by
        rw [challenges, ← logv, ← nv]
      have data : (⟨rounds'.coefficients, result.data.boundQuad, sampled.1.1⟩ :
          LayerVerifierData E) = result.data := by
        rw [coefficients, ← alpha]
      rw [deriveLayers, ← sampled_eq]
      simp only [derivedRounds, ← same.bindG_eq, bound, ok_bind, scalarQ, ended, next, derived, data, pure_eq_ok]
    · obtain ⟨claimsIn, claimedIn, relate⟩ := specRest.final
      refine ⟨claimsIn, claimedIn, fun {before} isIndex unmasked => ?_⟩
      subst isIndex
      have append : before ++ (result.proof :: r.layers) = before ++ [result.proof] ++ r.layers := by
        simp
      have unmaskedNext : Unmasked pads (before ++ [result.proof]) result.claims :=
        .inr ⟨before, result.proof, pad, rfl, isPad, spec.unmasked⟩
      obtain ⟨final, relations, verified, size, residuals⟩ := relate (by simp) unmaskedNext
      obtain ⟨claim, isClaim, denotes⟩ :=
        unmasked.denotes (result.proof :: r.layers) result.data.alpha
      have found : (before ++ (result.proof :: r.layers))[before.length]? = some result.proof := by
        simp
      have counts : ¬(result.proof.hp.2.length ≠ result.proof.hp.1.length ∨
          (result.data.rounds.1.length ≠ result.proof.hp.1.length ∨
            result.data.rounds.2.length ≠ result.proof.hp.1.length)) := by
        rw [spec.rounds.1, spec.rounds.2, spec.counts.1, spec.counts.2]
        simp
      have verifiedAll : verifyLayers ⟨before ++ (result.proof :: r.layers)⟩ before.length
          (result.data :: r.data) = .ok (.new before.length (claim.runRounds before.length 0
            result.proof.hp.1 result.proof.hp.2 result.data.rounds.1 result.data.rounds.2)
            result.proof.claims result.data.boundQuad :: relations) := by
        rw [verifyLayers, getAt_eq_ok.mpr found, ok_bind]
        simp only [check_of counts, ok_bind, isClaim]
        rw [append, verified, ok_bind, pure_eq_ok]
      refine ⟨append ▸ final, _, verifiedAll, congrArg (· + 1) size, ?_⟩
      rw [alpha] at denotes
      rw [layerResiduals, spec.relation isPad denotes, ok_bind, residuals, ok_bind, pure_eq_ok,
        List.length_cons, List.replicate_succ]

/-! ### The whole run -/

/-- A circuit and its inputs as the protocol needs them. -/
structure WellFormed (raw : RawCircuit E) (inputs : List E) : Prop where
  logv : SaneLogw raw.logv
  width : inputs.length = raw.ninput
  positive : 0 < raw.ninput
  layers : LayersFit raw.constants raw.ninput raw.noutput raw.layers

theorem length_outputs_pos {raw : RawCircuit E} (wellFormed : WellFormed raw inputs)
    (evaluates : Evaluates messages raw.constants raw.noutput raw.layers ws outputs inputs) :
    0 < outputs.length := by
  obtain ⟨_, width, positive, fits⟩ := wellFormed
  cases layers : raw.layers with
  | nil =>
    rw [layers] at evaluates
    obtain ⟨_, rfl⟩ := evaluates
    rwa [width]
  | cons layer later =>
    rw [layers] at evaluates fits
    obtain ⟨_, _, _, evaluated, _⟩ := evaluates
    obtain ⟨terms, expands, size, _⟩ := evalQuad_spec evaluated
    have sorted := fits.1 terms expands
    obtain ⟨term, member⟩ := List.exists_mem_of_ne_nil _ sorted.nonempty
    rw [size]
    exact Nat.zero_lt_of_lt (sorted.outputs term member)

/-- **Completeness of the v1 sumcheck**: the prover returns, the verifier derives the same data from
its proof on the same transcript, and accepts. -/
theorem twoHand_complete (ts : Transcript σ E) (lawful : f.Lawful 3) {repr : E → String}
    {raw : RawCircuit E} {inputs : List E} (wellFormed : WellFormed raw inputs)
    {inLayers : List (List E)} (evaluated : evalCircuit (.v1 repr) inputs raw = .ok inLayers)
    {pads : SumcheckProof E} (shaped : pads.Shaped (.fromCircuit raw)) (t : σ) :
    ∃ proof data t', proveCore ts f inLayers pads raw t = .ok (proof, data, t') ∧
      deriveVerifierData ts f raw proof t = .ok (data, t') ∧
      verifyCore ts f inputs pads raw proof t = .ok t' := by
  obtain ⟨outputs, evaluates, zeros⟩ := evalCircuit_spec evaluated
  have rounds : List.Forall₂ (fun layer (pad : LayerProof E) => pad.Rounds layer.logw) raw.layers
      pads.layers := List.forall₂_map_left_iff.mp shaped.rounds
  set begun := beginCircuit ts t with begun_eq
  have size : begun.1.2.length = maxLogw := ts.length_eltFieldSlice maxLogw _
  have short : raw.logv ≤ begun.1.2.length := size ▸ wellFormed.logv.1
  set point := begun.1.2.take raw.logv with point_eq
  have sizeP : point.length = raw.logv := List.length_take_of_le short
  set bindings : Bindings E := ⟨raw.logv, raw.noutput, (point, point)⟩ with bindings_eq
  have claimed : Claims bindings outputs.length (0, 0) outputs := by
    intro alpha
    obtain ⟨table, filled, sized⟩ := eq2_returns (ε := String) sizeP.ge sizeP.ge
      (length_outputs_pos wellFormed evaluates) alpha
    refine ⟨table, filled, sized, ?_⟩
    rw [dot_comm, dot_eq_zero_of_forall _ zeros, mul_zero, add_zero]
  have fits : LayersFit raw.constants inputs.length bindings.nv raw.layers :=
    wellFormed.width ▸ wellFormed.layers
  obtain ⟨r, ran, spec⟩ := proveLayers_spec ts lawful (List.drop_zero ..) rounds shaped.sane
    wellFormed.logv fits evaluates claimed begun.2
  have same : SameWeights bindings ⟨raw.logv, raw.noutput, (begun.1.2, begun.1.2)⟩ :=
    ⟨rfl, rfl, fun n alpha => eq2_take short short n alpha⟩
  obtain ⟨last, derivedLayers, sameLast⟩ := spec.derived _ same
  obtain ⟨claimsIn, claimedIn, relate⟩ := spec.final
  obtain ⟨unmasked, relations, verified, count, residuals⟩ := relate rfl (.inl ⟨rfl, rfl⟩)
  set sampled := ts.eltField r.t with sampled_eq
  obtain ⟨weights, filled, sizeW, weighted⟩ := claimedIn sampled.1
  rw [wellFormed.width] at filled sizeW
  have validPads : pads.validate (.fromCircuit raw) = .ok () :=
    SumcheckProof.validate_eq_ok.mpr shaped
  have validProof : (⟨r.layers⟩ : SumcheckProof E).validate (.fromCircuit raw) = .ok () :=
    SumcheckProof.validate_eq_ok.mpr ⟨List.forall₂_map_left_iff.mpr spec.shape, shaped.elements⟩
  have filledLast := (sameLast.weights raw.ninput sampled.1).symm.trans filled
  have derived : deriveVerifierData ts f raw ⟨r.layers⟩ t =
      .ok (⟨r.data, sampled.1, weights⟩, sampled.2) := by
    rw [deriveVerifierData, validProof, mapErr_ok, ok_bind, ← begun_eq]
    simp only [derivedLayers, ok_bind, ← sampled_eq, filledLast, pure_eq_ok]
  refine ⟨⟨r.layers⟩, ⟨r.data, sampled.1, weights⟩, sampled.2, ?_, derived, ?_⟩
  · have lengths : (inLayers.map normalize).length ≥ raw.layers.length ∧
        pads.layers.length ≥ raw.layers.length := by
      rw [List.length_map, length_inLayers evaluates, rounds.length_eq]
      exact ⟨le_rfl, le_rfl⟩
    rw [proveCore, validPads, mapErr_ok, ok_bind, ← begun_eq]
    simp only [ensure_of short, ok_bind, ensure_of lengths, ← point_eq, ← bindings_eq, ran,
      ← sampled_eq, filled, pure_eq_ok]
  · have related : symbolicVerify ⟨r.layers⟩ ⟨r.data, sampled.1, weights⟩ =
        .ok ⟨relations, ⟨weights, (inputClaim ⟨r.layers⟩ sampled.1).neg⟩⟩ := by
      rw [symbolicVerify, check_of (not_not.mpr (spec.shape.length_eq.symm.trans spec.count.symm)),
        ok_bind]
      exact congrArg (· >>= _) verified
    have input := (unmasked.denotes_inputClaim sampled.1).neg.evaluate_eq
      "sumcheck relation pad shape mismatch"
    have sameShape : ¬(pads.layers.length ≠ relations.length ∨ inputs.length ≠ weights.length) := by
      rw [count, rounds.length_eq, sizeW, wellFormed.width]
      simp
    have zero : (⟨relations, ⟨weights, (inputClaim ⟨r.layers⟩ sampled.1).neg⟩⟩ :
        VerificationRelations E).evaluate inputs pads =
        .ok (List.replicate raw.layers.length 0 ++ [0]) := by
      rw [VerificationRelations.evaluate, check_of sameShape, ok_bind, residuals, ok_bind, evaluate]
      rw [show ([] : List (LayerProof E)) ++ r.layers = r.layers from rfl] at input
      rw [input, ok_bind, Blas.dot_eq (sizeW.trans wellFormed.width.symm), ok_bind, weighted,
        neg_add_cancel, pure_eq_ok]
    have allZero : ¬∃ value ∈ (List.replicate raw.layers.length (0 : E) ++ [0]).take r.layers.length,
        value ≠ 0 := by
      rintro ⟨value, member, nonzero⟩
      rcases List.mem_append.mp (List.mem_of_mem_take member) with isLayer | isInput
      · exact nonzero (List.eq_of_mem_replicate isLayer)
      · exact nonzero (List.mem_singleton.mp isInput)
    rw [verifyCore, validPads, mapErr_ok, ok_bind, derived, ok_bind]
    simp only [related, zero, ok_bind, check_of allZero, List.getLast?_append,
      List.getLast?_singleton, Option.some_or, expect, pure_eq_ok, check_of trivial]

/-- A transcript that counts its operations and samples the count. -/
def countingTranscript : Transcript Nat (ZMod 7) where
  writeBytes _ t := t + 1
  writeEltField _ t := t + 1
  writeEltFieldSlice _ t := t + 1
  eltField t := ((t : ZMod 7), t + 1)

/-- The interpolation points of a small prime field, with inverses as powers. -/
def smallField : InterpolationField (ZMod 7) where
  polyEvaluationPoint i := i
  newtonDenominator _ i := (i : ZMod 7) ^ 5

theorem lawful_smallField : smallField.Lawful 3 := by
  refine ⟨rfl, rfl, fun k i positive below small => ?_⟩
  interval_cases k <;> interval_cases i <;> decide

/-- A layer with an assertion and a square on two wires in Morton order, and a given number of
rounds. -/
def squareCircuit (logw : Nat) : RawCircuit (ZMod 7) where
  ninput := 2
  npublicInput := 1
  noutput := 1
  logv := 0
  subfieldBoundary := 0
  constants := [1, 0]
  layers := [⟨2, logw, [⟨0, 0, 1, 1⟩, ⟨0, 1, 0, 0⟩], [[0, 1]], [0]⟩]

theorem sorted_squareCircuit (logw : Nat) : ∀ layer ∈ (squareCircuit logw).layers, ∀ terms,
    (layer.terms (squareCircuit logw).constants : Exec String _) = .ok terms →
      TermsSorted 1 terms := by
  intro layer member terms expands
  obtain rfl := List.mem_singleton.mp member
  obtain rfl := Except.ok.inj expands
  refine ⟨by simp, ?_, ?_, ?_⟩
  · intro term isTerm
    rcases List.mem_cons.mp isTerm with rfl | isTerm
    · decide
    · obtain rfl := List.mem_singleton.mp isTerm
      decide
  · refine List.pairwise_cons.mpr ⟨fun other isOther => ?_, List.pairwise_singleton ..⟩
    obtain rfl := List.mem_singleton.mp isOther
    decide
  · intro first isFirst
    obtain rfl := Option.some.inj isFirst
    decide

theorem twoHand_complete_square :
    evalCircuit (.v1 fun _ => "?") [1, 0] (squareCircuit 1) = .ok [[1, 0]] ∧
    ∃ proof data t', proveCore countingTranscript smallField [[1, 0]]
        ⟨[⟨([⟨(3, 4)⟩], [⟨(5, 6)⟩]), (1, 2)⟩]⟩ (squareCircuit 1) 0 = .ok (proof, data, t') ∧
      deriveVerifierData countingTranscript smallField (squareCircuit 1) proof 0 = .ok (data, t') ∧
      verifyCore countingTranscript smallField [1, 0]
        ⟨[⟨([⟨(3, 4)⟩], [⟨(5, 6)⟩]), (1, 2)⟩]⟩ (squareCircuit 1) proof 0 = .ok t' := by
  have shaped : (⟨[⟨([⟨(3, 4)⟩], [⟨(5, 6)⟩]), (1, 2)⟩]⟩ : SumcheckProof (ZMod 7)).Shaped
      (.fromCircuit (squareCircuit 1)) :=
    SumcheckProof.validate_eq_ok.mp (show _ = Except.ok () from rfl)
  have fits : LayersFit (squareCircuit 1).constants 2 1 (squareCircuit 1).layers :=
    ⟨sorted_squareCircuit 1 _ (List.mem_singleton_self _), le_rfl, trivial⟩
  have evaluated : evalCircuit (.v1 fun _ => "?") [1, 0] (squareCircuit 1) = .ok [[1, 0]] := rfl
  exact ⟨evaluated, twoHand_complete countingTranscript lawful_smallField
    ⟨by decide, rfl, by decide, fits⟩ evaluated shaped 0⟩

/-- The prover panics on a layer with more wires than its rounds can bind, although the circuit
evaluates, its layer is not empty and in Morton order, and its indices are in range. -/
theorem twoHand_wide_layer :
    evalCircuit (.v1 fun _ => "?") [1, 0] (squareCircuit 0) = .ok [[1, 0]] ∧
    (∀ layer ∈ (squareCircuit 0).layers, layer.InRange 2) ∧
    (∀ layer ∈ (squareCircuit 0).layers, ∀ terms,
      (layer.terms (squareCircuit 0).constants : Exec String _) = .ok terms → TermsSorted 1 terms) ∧
    ∃ message, proveCore countingTranscript smallField [[1, 0]] ⟨[⟨([], []), (1, 2)⟩]⟩
      (squareCircuit 0) 0 = .error (.panic message) := by
  refine ⟨rfl, ?_, sorted_squareCircuit 0, ⟨_, rfl⟩⟩
  intro layer member
  obtain rfl := List.mem_singleton.mp member
  decide

end Longfellow.SumcheckV1
