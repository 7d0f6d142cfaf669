/-
**The three evaluators agree** (`runtime/sumcheck-v1/src/eval.rs`,
`runtime/sumcheck-v2/src/eval.rs`, `compile/eval/src/eval.rs`).

The evaluators of the two sumcheck versions as each is written: version 1 reads the second wire
first, multiplies the coefficient in first and stores the inputs of a layer at its index; version 2
multiplies the wires first, skips a coefficient of one and collects the inputs in reverse.

* `evaluators_agree` — **on a circuit in range and inputs of the right number the three evaluators
  all accept, the two versions with the same values, or all reject.**
-/

import Longfellow.Compile.Eval

namespace Longfellow

open Lib

variable {E : Type} [CommRing E] [DecidableEq E]

/-! ### Version 1 -/

/-- One term of version 1. -/
def evalTermV1 (repr : E → String) (w v : List E) (term : Term E) : Exec String (List E) := do
  let wl ← getAt w term.h1.toNat
  let wr ← getAt w term.h0.toNat
  if term.k = 0 then do
    let y := wl * wr
    check (y = 0) ((EvalMessages.v1 repr).gate term wr wl)
    pure v
  else do
    let x := term.k * wl * wr
    let old ← getAt v term.g.toNat
    setAt v term.g.toNat (old + x)

/-- One layer of version 1. -/
def evalQuadV1 (repr : E → String) (nv : Nat) (w : List E) (layer : Layer) (constants : List E) :
    Exec String (List E) :=
  layer.tryForEachTerm constants (evalTermV1 repr w) (List.replicate nv 0)

/-- Evaluate layer `l` and store its inputs at `l`. -/
def evalStepV1 (repr : E → String) (raw : RawCircuit E) (state : List E × List (List E))
    (layer : Layer × Nat) : Exec String (List E × List (List E)) := do
  let nv ← (if layer.2 > 0 then do
      let before ← getAt raw.layers (layer.2 - 1)
      pure before.nw
    else pure raw.noutput : Exec String Nat)
  let v ← mapErr (fun e => raise
    s!"Witness does not satisfy circuit constraints at layer {layer.2}: {e}")
    (evalQuadV1 repr nv state.1 layer.1 raw.constants)
  let inLayers ← setAt state.2 layer.2 state.1
  pure (v, inLayers)

/-- Evaluate a circuit, version 1. -/
def evalCircuitV1 (repr : E → String) (w : List E) (raw : RawCircuit E) :
    Exec String (List (List E)) := do
  let (v, inLayers) ← raw.layers.zipIdx.reverse.foldlM (evalStepV1 repr raw)
    (w, List.replicate raw.layers.length [])
  checkOutputs (.v1 repr) 0 v
  pure inLayers

/-! ### Version 2 -/

/-- One term of version 2. -/
def evalTermV2 (w outputs : List E) (term : Term E) : Exec String (List E) := do
  let wl ← getAt w term.h0.toNat
  let wr ← getAt w term.h1.toNat
  let product := wl * wr
  if term.k = 0 then do
    check (product = 0)
      s!"gate multiplication constraint not satisfied: wire_l={term.h0}, wire_r={term.h1}"
    pure outputs
  else do
    let old ← getAt outputs term.g.toNat
    if term.k = 1 then setAt outputs term.g.toNat (old + product)
    else setAt outputs term.g.toNat (old + term.k * product)

/-- One layer of version 2. -/
def evalLayerV2 (w : List E) (layer : Layer) (constants : List E) (noutput : Nat) :
    Exec String (List E) :=
  layer.tryForEachTerm constants (evalTermV2 w) (List.replicate noutput 0)

/-- Evaluate layer `l` and append its inputs. -/
def evalStepV2 (raw : RawCircuit E) (state : List E × List (List E)) (layer : Layer × Nat) :
    Exec String (List E × List (List E)) := do
  let noutput ← (if layer.2 = 0 then pure raw.noutput
    else do
      let before ← getAt raw.layers (layer.2 - 1)
      pure before.nw : Exec String Nat)
  let outputs ← mapErr (fun e => raise
    s!"Witness does not satisfy circuit constraints at layer {layer.2}: {e}")
    (evalLayerV2 state.1 layer.1 raw.constants noutput)
  pure (outputs, state.2 ++ [state.1])

/-- Evaluate a circuit, version 2. -/
def evalCircuitV2 (w : List E) (raw : RawCircuit E) : Exec String (List (List E)) := do
  let (w, wLayers) ← raw.layers.zipIdx.reverse.foldlM (evalStepV2 raw) (w, [])
  checkOutputs .v2 0 w
  pure wLayers.reverse

/-! ### Both are the common evaluator -/

theorem evalTermV1_eq (repr : E → String) (w v : List E) (term : Term E) :
    evalTermV1 repr w v term = evalTerm (.v1 repr) w v term := by
  unfold evalTermV1 evalTerm getAt
  cases w[term.h0.toNat]? with
  | none => cases w[term.h1.toNat]? <;> rfl
  | some wr =>
    cases w[term.h1.toNat]? with
    | none => rfl
    | some wl =>
      simp only [pure_eq_ok, ok_bind, mul_comm wr wl, mul_assoc]

theorem evalTermV2_eq (w v : List E) (term : Term E) :
    evalTermV2 w v term = evalTerm .v2 w v term := by
  unfold evalTermV2 evalTerm
  by_cases one : term.k = 1
  · simp only [one, if_true, one_mul]
    rfl
  · simp only [one, if_false]
    rfl

theorem evalQuadV1_eq (repr : E → String) : evalQuadV1 repr = evalQuad (.v1 repr) := by
  funext nv w layer constants
  rw [evalQuadV1, evalQuad]
  congr 1
  funext v term
  exact evalTermV1_eq repr w v term

theorem evalLayerV2_eq (w : List E) (layer : Layer) (constants : List E) (noutput : Nat) :
    evalLayerV2 w layer constants noutput = evalQuad .v2 noutput w layer constants := by
  rw [evalLayerV2, evalQuad]
  congr 1
  funext v term
  exact evalTermV2_eq w v term

theorem evalStepV1_eq (repr : E → String) (raw : RawCircuit E) (w : List E) (ws : List (List E))
    (layer : Layer) (l : Nat) :
    evalStepV1 repr raw (w, List.replicate (l + 1) [] ++ ws) (layer, l) =
      (fun state => (state.1, List.replicate l [] ++ state.2)) <$>
        evalStep (.v1 repr) raw (w, ws) (layer, l) := by
  have stored : (setAt (List.replicate (l + 1) [] ++ ws) l w : Exec String _) =
      .ok (List.replicate l [] ++ w :: ws) := by
    rw [setAt_of_lt (by simp; omega), List.replicate_succ']
    simp
  have order : (if l > 0 then do
      let before ← getAt raw.layers (l - 1)
      pure before.nw
    else pure raw.noutput : Exec String Nat) = (if l = 0 then pure raw.noutput
    else do
      let before ← getAt raw.layers (l - 1)
      pure before.nw) := by
    cases l <;> rfl
  simp only [evalStepV1, evalStep, evalQuadV1_eq, stored, order]
  cases (if l = 0 then pure raw.noutput
    else do
      let before ← getAt raw.layers (l - 1)
      pure before.nw : Exec String Nat) with
  | error fault => rfl
  | ok nv =>
    simp only [ok_bind]
    cases mapErr _ (evalQuad (.v1 repr) nv w layer raw.constants) <;> rfl

theorem foldlM_evalStepV1 (repr : E → String) (raw : RawCircuit E) (w : List E)
    (layers : List Layer) (done : Nat) :
    (layers.zipIdx done).reverse.foldlM (evalStepV1 repr raw)
        (w, List.replicate (done + layers.length) []) =
      (fun state => (state.1, List.replicate done [] ++ state.2)) <$>
        (layers.zipIdx done).reverse.foldlM (evalStep (.v1 repr) raw) (w, []) := by
  induction layers generalizing done with
  | nil => simp
  | cons layer layers ih =>
    have count : done + (layers.length + 1) = done + 1 + layers.length := by omega
    rw [List.zipIdx_cons, List.reverse_cons, List.foldlM_append, List.foldlM_append,
      List.length_cons, count, ih]
    cases (layers.zipIdx (done + 1)).reverse.foldlM (evalStep (.v1 repr) raw) (w, []) with
    | error fault => rfl
    | ok state =>
      show (evalStepV1 repr raw (state.1, _) (layer, done) >>= pure) =
        _ <$> (evalStep (.v1 repr) raw state (layer, done) >>= pure)
      rw [evalStepV1_eq, bind_pure, bind_pure]

theorem evalStepV2_eq (raw : RawCircuit E) (state : List E × List (List E)) (layer : Layer × Nat) :
    evalStepV2 raw (state.1, state.2.reverse) layer =
      (fun state => (state.1, state.2.reverse)) <$> evalStep .v2 raw state layer := by
  simp only [evalStepV2, evalStep, evalLayerV2_eq]
  cases (if layer.2 = 0 then pure raw.noutput
    else do
      let before ← getAt raw.layers (layer.2 - 1)
      pure before.nw : Exec String Nat) with
  | error fault => rfl
  | ok noutput =>
    simp only [ok_bind]
    cases mapErr _ (evalQuad .v2 noutput state.1 layer.1 raw.constants) with
    | error fault => rfl
    | ok outputs =>
      simp only [ok_bind, ← List.reverse_cons]
      rfl

theorem foldlM_evalStepV2 (raw : RawCircuit E) (layers : List (Layer × Nat))
    (state : List E × List (List E)) :
    layers.foldlM (evalStepV2 raw) (state.1, state.2.reverse) =
      (fun state => (state.1, state.2.reverse)) <$>
        layers.foldlM (evalStep .v2 raw) state := by
  induction layers generalizing state with
  | nil => rfl
  | cons layer layers ih =>
    rw [List.foldlM_cons, List.foldlM_cons, evalStepV2_eq]
    cases evalStep .v2 raw state layer with
    | error fault => rfl
    | ok next => exact ih next

theorem evalCircuitV1_eq (repr : E → String) (w : List E) (raw : RawCircuit E) :
    evalCircuitV1 repr w raw = evalCircuit (.v1 repr) w raw := by
  have loop := foldlM_evalStepV1 repr raw w raw.layers 0
  rw [Nat.zero_add] at loop
  rw [evalCircuitV1, evalCircuit, loop]
  cases raw.layers.zipIdx.reverse.foldlM (evalStep (.v1 repr) raw) (w, []) <;> rfl

theorem evalCircuitV2_eq (w : List E) (raw : RawCircuit E) :
    evalCircuitV2 w raw = evalCircuit .v2 w raw := by
  have loop := foldlM_evalStepV2 raw raw.layers.zipIdx.reverse (w, [])
  rw [List.reverse_nil] at loop
  rw [evalCircuitV2, evalCircuit, loop]
  cases raw.layers.zipIdx.reverse.foldlM (evalStep .v2 raw) (w, []) with
  | error fault => rfl
  | ok state =>
    show (checkOutputs .v2 0 state.1 >>= fun _ => pure state.2.reverse.reverse) = _
    rw [List.reverse_reverse]
    rfl

/-! ### Agreement -/

/-- **The evaluators agree**: on a circuit in range and inputs of the right number, all accept, and
the two sumcheck versions return the same inputs of every layer, or all reject. -/
theorem evaluators_agree {τ : Type} (repr : E → String) (raw : RawCircuit E)
    (symbols : CircuitDebugSymbols τ) (inputs : List E) (inRange : raw.InRange)
    (size : inputs.length = raw.ninput) :
    (∃ inLayers evaluated, evalCircuitV1 repr inputs raw = .ok inLayers ∧
      evalCircuitV2 inputs raw = .ok inLayers ∧
      compileEval raw symbols inputs = .ok evaluated ∧
      evaluated.result = .ok () ∧ evaluated.isOk = true) ∨
    (∃ error error' evaluated, evalCircuitV1 repr inputs raw = raise error ∧
      evalCircuitV2 inputs raw = raise error' ∧
      compileEval raw symbols inputs = .ok evaluated ∧
      evaluated.result = .error .assertionFailure ∧ evaluated.isOk = false) := by
  obtain ⟨evaluated, compiled, succeeds, rejects⟩ := compileEval_returns symbols inRange size
  have first := decides_evalCircuit (.v1 repr) inRange size
  have second := decides_evalCircuit .v2 inRange size
  rw [evalCircuitV1_eq, evalCircuitV2_eq]
  by_cases accepts : raw.Accepts inputs
  · exact .inl ⟨_, evaluated, first.returns accepts, second.returns accepts, compiled,
      succeeds accepts⟩
  · obtain ⟨error, failed⟩ := first.fails accepts
    obtain ⟨error', failed'⟩ := second.fails accepts
    exact .inr ⟨error, error', evaluated, failed, failed', compiled, rejects accepts⟩

/-- A layer that asserts that the square of its second wire is zero. -/
def squareAssertion : RawCircuit Int where
  ninput := 2
  npublicInput := 1
  noutput := 1
  logv := 0
  subfieldBoundary := 0
  constants := [0]
  layers := [.newUncompressed 2 1 [⟨0, 1, 1, 0⟩] [0]]

theorem inRange_squareAssertion : squareAssertion.InRange := by
  refine ⟨⟨by decide, ?_⟩, trivial⟩
  intro terms expands
  obtain rfl := Except.ok.inj expands
  intro term member
  obtain rfl := List.mem_singleton.mp member
  exact ⟨by decide, by decide, by decide⟩

/-- The three evaluators at an assertion that holds. -/
theorem evaluators_agree_square :
    evalCircuitV1 (fun _ => "?") [1, 0] squareAssertion = .ok [[1, 0]] ∧
    ((∃ inLayers evaluated, evalCircuitV1 (fun _ => "?") [1, 0] squareAssertion = .ok inLayers ∧
      evalCircuitV2 [1, 0] squareAssertion = .ok inLayers ∧
      compileEval squareAssertion ⟨[], ()⟩ [1, 0] = .ok evaluated ∧
      evaluated.result = .ok () ∧ evaluated.isOk = true) ∨
    (∃ error error' evaluated, evalCircuitV1 (fun _ => "?") [1, 0] squareAssertion = raise error ∧
      evalCircuitV2 [1, 0] squareAssertion = raise error' ∧
      compileEval squareAssertion ⟨[], ()⟩ [1, 0] = .ok evaluated ∧
      evaluated.result = .error .assertionFailure ∧ evaluated.isOk = false)) :=
  ⟨rfl, evaluators_agree _ _ _ _ inRange_squareAssertion rfl⟩

end Longfellow
