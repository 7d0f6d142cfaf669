/-
**The evaluator of the compiler** (`compile/eval/src/eval.rs`, `compile/proto/src/debug.rs`).

The compiler's own evaluation of a circuit does not stop at a failing assertion: it records the
wires that fail, looks them up in the debug symbols and evaluates on.

* `compileEval_returns` — **the evaluator returns, and succeeds exactly when the circuit accepts**;
  no failed symbol is recorded in an evaluation that succeeds.
-/

import Longfellow.Sumcheck.Values
import Mathlib.Data.List.AList
import Mathlib.Data.List.Destutter

namespace Longfellow

open Lib

/-! ### Debug symbols -/

/-- A wire of a layer. -/
structure WireRef where
  layer : Nat
  index : Nat
  deriving DecidableEq, Repr

/-- The number of an assertion. -/
abbrev AssertionId := UInt32

/-- What became of an assertion. -/
inductive AssertionStatus where
  | passed
  | failed (message : String)
  deriving DecidableEq, Repr

/-- The wire of an assertion. -/
structure AssertionSymbol where
  wire : WireRef
  id : AssertionId
  deriving DecidableEq, Repr

/-- The debug symbols of a circuit, with the scope `τ` its assertions were made in. -/
structure CircuitDebugSymbols (τ : Type) where
  symbols : List AssertionSymbol
  tracker : τ

variable {τ : Type}

/-- The assertion of a wire, if it has one. -/
def CircuitDebugSymbols.getId (symbols : CircuitDebugSymbols τ) (wire : WireRef) :
    Option AssertionId :=
  (symbols.symbols.find? fun symbol => symbol.wire = wire).map AssertionSymbol.id

/-- The fates of the assertions, by number. -/
abbrev Fates := AList fun _ : AssertionId => AssertionStatus

/-- Why an evaluation fails. -/
inductive EvalError where
  | undefinedInput (index : Nat)
  | assertionFailure
  | inputSizeMismatch (expected got : Nat)
  | excessiveInput
  deriving DecidableEq, Repr

/-- The result of an evaluation. -/
structure CompiledEvalAssertions (τ : Type) where
  result : Except EvalError Unit
  fates : Fates
  tracker : τ

/-- No assertion has failed. -/
def Fates.isOk (fates : Fates) : Bool := fates.entries.all fun fate => fate.2 = .passed

/-- The evaluation succeeded. -/
def CompiledEvalAssertions.isOk (evaluated : CompiledEvalAssertions τ) : Bool :=
  evaluated.result.isOk && evaluated.fates.isOk

/-- Record the fate of a wire, if it is the wire of an assertion. -/
def CircuitDebugSymbols.record (symbols : CircuitDebugSymbols τ) (wire : WireRef)
    (status : AssertionStatus) (fates : Fates) : Fates :=
  match symbols.getId wire with
  | some id => fates.insert id status
  | none => fates

/-! ### The evaluator -/

variable {E : Type} [CommRing E] [DecidableEq E]

/-- Note a failed assertion, or add a term to its output. -/
def noteTerm (vin : List E) (state : List E × List Nat) (term : Term E) :
    Exec String (List E × List Nat) := do
  let w0 ← getAt vin term.h0.toNat
  let w1 ← getAt vin term.h1.toNat
  let y := w0 * w1
  if term.k = 0 then
    pure (state.1, if y = 0 then state.2 else state.2 ++ [term.g.toNat])
  else do
    let old ← getAt state.1 term.g.toNat
    let vout ← setAt state.1 term.g.toNat (old + term.k * y)
    pure (vout, state.2)

/-- The outputs of a layer, and the wires of its failed assertions in order. -/
def evalLayer (noutput : Nat) (layer : Layer) (constants vin : List E) :
    Exec String (List E × List Nat) := do
  let (vout, failedWires) ← layer.tryForEachTerm constants (noteTerm vin)
    (List.replicate noutput 0, [])
  pure (vout, (failedWires.mergeSort (· ≤ ·)).destutter (· ≠ ·))

/-- The loop state: the values of the current layer, the fates, and whether anything failed. -/
structure EvalState (E : Type) where
  currentV : List E
  fates : Fates
  overallFailed : Bool

/-- Evaluate layer `l` of a circuit. -/
def compileStep (symbols : CircuitDebugSymbols τ) (raw : RawCircuit E) (state : EvalState E)
    (layer : Layer × Nat) : Exec String (EvalState E) := do
  let noutput ← (if layer.2 = 0 then pure raw.noutput
    else do
      let before ← getAt raw.layers (layer.2 - 1)
      pure before.nw : Exec String Nat)
  let (v, failedWires) ← evalLayer noutput layer.1 raw.constants state.currentV
  pure {
    currentV := v
    fates := failedWires.foldl (fun fates index =>
      symbols.record ⟨layer.2, index⟩ (.failed "layer assertion failed") fates) state.fates
    overallFailed := state.overallFailed || !failedWires.isEmpty }

/-- Check one output. -/
def checkOutput (symbols : CircuitDebugSymbols τ) (state : Fates × Bool) (output : E × Nat) :
    Fates × Bool :=
  (symbols.record ⟨0, output.2⟩
    (if output.1 = 0 then .passed else .failed "circuit output non-zero") state.1,
   state.2 || !decide (output.1 = 0))

/-- The inputs, if there are as many as the circuit has. -/
def processInputs (ninput : Nat) (inputs : List E) : Except EvalError (List E) :=
  if inputs.length = ninput then .ok inputs
  else .error (.inputSizeMismatch ninput inputs.length)

/-- Evaluate a circuit. -/
def compileEval (raw : RawCircuit E) (symbols : CircuitDebugSymbols τ) (inputs : List E) :
    Exec String (CompiledEvalAssertions τ) :=
  match processInputs raw.ninput inputs with
  | .error err => pure ⟨.error err, ∅, symbols.tracker⟩
  | .ok vin => do
    let state ← raw.layers.zipIdx.reverse.foldlM (compileStep symbols raw) ⟨vin, ∅, false⟩
    let (fates, overallFailed) :=
      state.currentV.zipIdx.foldl (checkOutput symbols) (state.fates, state.overallFailed)
    pure ⟨if overallFailed then .error .assertionFailure else .ok (), fates, symbols.tracker⟩

/-! ### One layer -/

/-- What a term adds to the outputs and the failed wires. -/
def Term.note (vin : List E) (state : List E × List Nat) (term : Term E) : List E × List Nat :=
  (term.addTo vin state.1, if term.Holds vin then state.2 else state.2 ++ [term.g.toNat])

theorem noteTerm_eq {vin : List E} {state : List E × List Nat} {term : Term E}
    (inRange : term.InRange vin.length state.1.length) :
    noteTerm vin state term = .ok (term.note vin state) := by
  rw [noteTerm, getAt_eq_getD inRange.h0, ok_bind, getAt_eq_getD inRange.h1, ok_bind]
  by_cases zero : term.k = 0
  · have holds : term.Holds vin ↔ vin.getD term.h0.toNat 0 * vin.getD term.h1.toNat 0 = 0 :=
      ⟨fun holds => holds zero, fun vanishes _ => vanishes⟩
    simp only [if_pos zero, pure_eq_ok, Term.note, Term.addTo, holds]
  · have holds : term.Holds vin := fun isZero => absurd isZero zero
    simp only [if_neg zero, getAt_eq_getD inRange.g, ok_bind, setAt_of_lt inRange.g, pure_eq_ok,
      Term.note, Term.addTo, if_pos holds, Term.product]

theorem foldl_note_fst (vin : List E) (terms : List (Term E)) (state : List E × List Nat) :
    (terms.foldl (Term.note vin) state).1 = terms.foldl (Term.addTo vin) state.1 := by
  induction terms generalizing state with
  | nil => rfl
  | cons term terms ih => exact ih _

theorem foldl_note_snd (vin : List E) (terms : List (Term E)) (state : List E × List Nat) :
    (terms.foldl (Term.note vin) state).2 = [] ↔
      state.2 = [] ∧ ∀ term ∈ terms, term.Holds vin := by
  induction terms generalizing state with
  | nil => simp
  | cons term terms ih =>
    rw [List.foldl_cons, ih, List.forall_mem_cons, ← and_assoc]
    refine and_congr_left fun _ => ?_
    by_cases holds : term.Holds vin <;> simp [Term.note, holds]

section

variable {layer : Layer} {noutput : Nat} {vin constants : List E}
  (inRange : layer.WiresInRange constants vin.length noutput)
include inRange

theorem evalLayer_eq_ok :
    evalLayer noutput layer constants vin =
      .ok (layerOutputs noutput vin (layer.termsOf constants),
        (((layer.termsOf constants).foldl (Term.note vin)
          (List.replicate noutput 0, [])).2.mergeSort (· ≤ ·)).destutter (· ≠ ·)) := by
  have loop : layer.tryForEachTerm constants (noteTerm vin) (List.replicate noutput 0, []) =
      .ok ((layer.termsOf constants).foldl (Term.note vin) (List.replicate noutput 0, [])) := by
    rw [Layer.tryForEachTerm_eq _ inRange.terms_eq]
    refine foldlM_eq_ok_foldl (fun state => state.1.length = noutput) List.length_replicate ?_
    intro state term member size
    refine ⟨noteTerm_eq (size ▸ inRange.term member), ?_⟩
    rw [Term.note, Term.length_addTo, size]
  simp only [evalLayer, loop, ok_bind, pure_eq_ok, foldl_note_fst]
  rfl

/-- **One layer in range**: its outputs, and no failed wire exactly when its assertions hold. -/
theorem evalLayer_eq :
    ∃ failedWires, evalLayer noutput layer constants vin =
        .ok (layerOutputs noutput vin (layer.termsOf constants), failedWires) ∧
      (failedWires = [] ↔ ∀ term ∈ layer.termsOf constants, term.Holds vin) := by
  refine ⟨_, evalLayer_eq_ok inRange, ?_⟩
  rw [List.destutter_eq_nil, ← List.length_eq_zero_iff, List.length_mergeSort,
    List.length_eq_zero_iff, foldl_note_snd]
  simp

end

/-! ### The whole circuit -/

theorem isOk_record {symbols : CircuitDebugSymbols τ} {fates : Fates} (wire : WireRef)
    (passing : fates.isOk = true) : (symbols.record wire .passed fates).isOk = true := by
  unfold CircuitDebugSymbols.record
  split
  · simp only [Fates.isOk, AList.entries_insert, List.all_cons, List.all_eq_true,
      decide_eq_true_eq, decide_true, Bool.true_and] at passing ⊢
    exact fun fate member => passing fate ((List.kerase_sublist _ _).subset member)
  · exact passing

/-- The state of the evaluation says what the values say. -/
structure Tracks (values : Values E) (state : EvalState E) : Prop where
  currentV : state.currentV = values.outputs
  overallFailed : state.overallFailed = false ↔ values.holds
  fates : state.overallFailed = false → state.fates.isOk = true

variable (symbols : CircuitDebugSymbols τ)
include symbols

theorem tracks_compileSteps {raw : RawCircuit E} {inputs : List E} {layers : List Layer}
    (done : List Layer) (split : raw.layers = done ++ layers)
    (inRange : LayersInRange raw.constants inputs.length (outputsAt raw done.length) layers) :
    ∃ state, (layers.zipIdx done.length).reverse.foldlM (compileStep symbols raw)
        ⟨inputs, ∅, false⟩ = .ok state ∧
      Tracks (circuitValues raw.constants inputs (outputsAt raw done.length) layers) state := by
  induction layers generalizing done with
  | nil => exact ⟨_, rfl, rfl, iff_of_true rfl trivial, fun _ => rfl⟩
  | cons layer layers ih =>
    have split' : raw.layers = (done ++ [layer]) ++ layers := by simpa using split
    have width : outputsAt raw (done ++ [layer]).length = layer.nw := by
      simp [outputsAt, split']
    have bound : done.length ≤ raw.layers.length := by simp [split]
    obtain ⟨here, rest⟩ := inRange
    obtain ⟨state, later, tracks⟩ := ih (done ++ [layer]) split' (by rw [width]; exact rest)
    rw [width, List.length_append, List.length_singleton] at *
    have reads : (circuitValues raw.constants inputs layer.nw layers).outputs.length =
        if layers = [] then inputs.length else layer.nw := length_outputs ..
    rw [← reads, ← tracks.currentV] at here
    obtain ⟨failedWires, evaluated, none⟩ := evalLayer_eq here
    rw [List.zipIdx_cons, List.reverse_cons, List.foldlM_append, later, ok_bind]
    simp only [List.foldlM_cons, List.foldlM_nil, compileStep, noutput_eq bound, ok_bind, evaluated]
    refine ⟨_, rfl, ?_, ?_, ?_⟩
    · rw [tracks.currentV]
      rfl
    · rw [tracks.currentV] at none
      simp [circuitValues, tracks.overallFailed, none]
    · intro passing
      obtain ⟨before, empty⟩ : state.overallFailed = false ∧ failedWires = [] := by
        simpa using passing
      rw [empty]
      exact tracks.fates before

theorem foldl_checkOutput (outputs : List (E × Nat)) (state : Fates × Bool) :
    ((outputs.foldl (checkOutput symbols) state).2 = false ↔
      state.2 = false ∧ ∀ output ∈ outputs, output.1 = 0) ∧
    ((outputs.foldl (checkOutput symbols) state).2 = false → state.1.isOk = true →
      (outputs.foldl (checkOutput symbols) state).1.isOk = true) := by
  induction outputs generalizing state with
  | nil => simp
  | cons output outputs ih =>
    obtain ⟨verdict, passes⟩ := ih (checkOutput symbols state output)
    rw [List.foldl_cons, List.forall_mem_cons, ← and_assoc]
    refine ⟨verdict.trans (and_congr_left fun _ => by simp [checkOutput]), ?_⟩
    intro passing before
    refine passes passing ?_
    obtain ⟨_, zero⟩ : state.2 = false ∧ output.1 = 0 := by
      simpa [checkOutput] using (verdict.mp passing).1
    rw [checkOutput, if_pos zero]
    exact isOk_record _ before

/-- **The evaluator of the compiler returns, and succeeds exactly when the circuit accepts**; when
it does not succeed, its error is a failed assertion. -/
theorem compileEval_returns {raw : RawCircuit E} {inputs : List E} (inRange : raw.InRange)
    (size : inputs.length = raw.ninput) :
    ∃ evaluated, compileEval raw symbols inputs = .ok evaluated ∧
      (raw.Accepts inputs → evaluated.result = .ok () ∧ evaluated.isOk = true) ∧
      (¬raw.Accepts inputs →
        evaluated.result = .error .assertionFailure ∧ evaluated.isOk = false) := by
  have layers : LayersInRange raw.constants inputs.length raw.noutput raw.layers := by
    rw [size]
    exact inRange
  obtain ⟨state, loop, tracks⟩ : ∃ state, raw.layers.zipIdx.reverse.foldlM
      (compileStep symbols raw) ⟨inputs, ∅, false⟩ = .ok state ∧
      Tracks (circuitValues raw.constants inputs raw.noutput raw.layers) state :=
    tracks_compileSteps symbols [] rfl layers
  obtain ⟨verdict, passes⟩ :=
    foldl_checkOutput symbols state.currentV.zipIdx (state.fates, state.overallFailed)
  -- The verdict is what the circuit accepts.
  have accepts : (state.currentV.zipIdx.foldl (checkOutput symbols)
      (state.fates, state.overallFailed)).2 = false ↔ raw.Accepts inputs := by
    rw [verdict]
    refine and_congr tracks.overallFailed ?_
    rw [← tracks.currentV, ← List.forall_mem_map (P := fun val => val = 0), List.zipIdx_map_fst]
  simp only [compileEval, processInputs, if_pos size, loop, ok_bind]
  refine ⟨_, rfl, fun accepted => ?_, fun rejected => ?_⟩
  · have passing := accepts.mpr accepted
    have fine := passes passing (tracks.fates (verdict.mp passing).1)
    simp [passing, fine, CompiledEvalAssertions.isOk, Except.isOk, Except.toBool]
  · have failing := mt accepts.mp rejected
    simp [failing, CompiledEvalAssertions.isOk, Except.isOk, Except.toBool]

end Longfellow
