/-
**What a debug evaluation reports** (`compile/eval/src/eval.rs`).

The evaluator marks the symbol of every failing assertion, layer by layer from the inputs up, and
then the symbol of every output. The outputs come last, so the verdict of an output stands over
that of an assertion in layer 0 that sits on the same wire.

* `reports_exactly_iff` — **the report is exact if and only if the input has the length of the
  circuit's and no output that is zero carries a failing assertion**.
-/

import Longfellow.Compile.Wide

set_option linter.unusedSectionVars false

namespace Longfellow

open Lib

variable {τ E : Type} [CommRing E] [DecidableEq E]

/-! ### Wires that are not zero -/

/-- The values that layer `l` reads. -/
def RawCircuit.valuesInto (raw : RawCircuit E) (inputs : List E) (l : Nat) : List E :=
  (circuitValues raw.constants inputs (outputsAt raw (l + 1)) (raw.layers.drop (l + 1))).outputs

/-- Some assertion on the wire fails. -/
def RawCircuit.AssertionFails (raw : RawCircuit E) (inputs : List E) (wire : WireRef) : Prop :=
  ∃ layer ∈ raw.layers[wire.layer]?, ∃ term ∈ layer.termsOf raw.constants,
    term.g.toNat = wire.index ∧ ¬term.Holds (raw.valuesInto inputs wire.layer)

/-- The wire is an output, and it is not zero. -/
def RawCircuit.OutputFails (raw : RawCircuit E) (inputs : List E) (wire : WireRef) : Prop :=
  wire.layer = 0 ∧
    (circuitValues raw.constants inputs raw.noutput raw.layers).outputs.getD wire.index 0 ≠ 0

/-- A value that should be zero on the wire is not. -/
def RawCircuit.NonzeroAt (raw : RawCircuit E) (inputs : List E) (wire : WireRef) : Prop :=
  raw.OutputFails inputs wire ∨ raw.AssertionFails inputs wire

instance (raw : RawCircuit E) (inputs : List E) (wire : WireRef) :
    Decidable (raw.AssertionFails inputs wire) :=
  inferInstanceAs (Decidable (∃ layer ∈ raw.layers[wire.layer]?, _))

instance (raw : RawCircuit E) (inputs : List E) (wire : WireRef) :
    Decidable (raw.OutputFails inputs wire) :=
  inferInstanceAs (Decidable (_ ∧ _))

/-! ### Reports -/

/-- The assertion was marked as failed. -/
def Fates.Failed (fates : Fates) (id : AssertionId) : Prop :=
  ∃ message, fates.lookup id = some (.failed message)

/-- The evaluation succeeds exactly when it marks no symbol, and it marks exactly the symbols of
the wires that are not zero. -/
structure ReportsExactly (raw : RawCircuit E) (symbols : CircuitDebugSymbols τ) (inputs : List E)
    (evaluated : CompiledEvalAssertions τ) : Prop where
  result : evaluated.result = .ok () ↔ ∀ symbol ∈ symbols.symbols, ¬evaluated.fates.Failed symbol.id
  marked : ∀ symbol ∈ symbols.symbols,
    evaluated.fates.Failed symbol.id ↔ raw.NonzeroAt inputs symbol.wire

/-- The symbols of a circuit with layers: every output and every assertion has one, different
symbols have different wires and different numbers. -/
structure CircuitDebugSymbols.Covers (symbols : CircuitDebugSymbols τ) (raw : RawCircuit E) :
    Prop where
  layers : raw.layers ≠ []
  wires : (symbols.symbols.map AssertionSymbol.wire).Nodup
  ids : (symbols.symbols.map AssertionSymbol.id).Nodup
  output : ∀ i < raw.noutput, ⟨0, i⟩ ∈ symbols.symbols.map AssertionSymbol.wire
  assertion : ∀ {l : Nat} {layer : Layer}, raw.layers[l]? = some layer →
    ∀ term ∈ layer.termsOf raw.constants, term.k = 0 →
      ⟨l, term.g.toNat⟩ ∈ symbols.symbols.map AssertionSymbol.wire

/-! ### One symbol -/

variable {wire : WireRef}

theorem CircuitDebugSymbols.getId_eq_some {symbols : CircuitDebugSymbols τ}
    (wires : (symbols.symbols.map AssertionSymbol.wire).Nodup) {id : AssertionId} :
    symbols.getId wire = some id ↔ ⟨wire, id⟩ ∈ symbols.symbols := by
  constructor
  · intro found
    obtain ⟨symbol, first, rfl⟩ := Option.map_eq_some_iff.mp found
    have here : symbol.wire = wire := by simpa using List.find?_some first
    have member := List.mem_of_find?_eq_some first
    rwa [← here]
  · intro member
    have some : (symbols.symbols.find? fun symbol => symbol.wire = wire).isSome := by
      rw [List.find?_isSome]
      exact ⟨_, member, by simp⟩
    obtain ⟨symbol, first⟩ := Option.isSome_iff_exists.mp some
    have here : symbol.wire = wire := by simpa using List.find?_some first
    have same : symbol = ⟨wire, id⟩ :=
      List.inj_on_of_nodup_map wires (List.mem_of_find?_eq_some first) member here
    rw [CircuitDebugSymbols.getId, first, same]
    rfl

theorem CircuitDebugSymbols.failed_record {symbols : CircuitDebugSymbols τ}
    {status : AssertionStatus} {fates : Fates} {id : AssertionId} :
    (symbols.record wire status fates).Failed id ↔
      (symbols.getId wire = some id ∧ status ≠ .passed) ∨
        (symbols.getId wire ≠ some id ∧ fates.Failed id) := by
  unfold CircuitDebugSymbols.record
  rcases found : symbols.getId wire with _ | id'
  · simp
  · rcases eq_or_ne id id' with rfl | other
    · cases status <;> simp [Fates.Failed, AList.lookup_insert]
    · simp [Fates.Failed, AList.lookup_insert_ne other, other.symm]

theorem CircuitDebugSymbols.failed_foldl_record (symbols : CircuitDebugSymbols τ) (l : Nat)
    (message : String) (failedWires : List Nat) (fates : Fates) (id : AssertionId) :
    Fates.Failed (failedWires.foldl (fun fates index =>
        symbols.record ⟨l, index⟩ (.failed message) fates) fates) id ↔
      (∃ index ∈ failedWires, symbols.getId ⟨l, index⟩ = some id) ∨ fates.Failed id := by
  induction failedWires generalizing fates with
  | nil => simp
  | cons index failedWires ih =>
    rw [List.foldl_cons, ih, CircuitDebugSymbols.failed_record]
    by_cases here : symbols.getId ⟨l, index⟩ = some id <;> simp [here]

/-! ### One layer -/

theorem mem_destutter' {α : Type} [DecidableEq α] {x : α} (a : α) (xs : List α) :
    x ∈ List.destutter' (· ≠ ·) a xs ↔ x = a ∨ x ∈ xs := by
  induction xs generalizing a with
  | nil => simp
  | cons b xs ih =>
    rcases eq_or_ne a b with rfl | differ
    · rw [List.destutter'_cons_neg _ (by simp), ih]
      simp
    · rw [List.destutter'_cons_pos _ differ, List.mem_cons, ih, List.mem_cons]

theorem mem_destutter {α : Type} [DecidableEq α] {x : α} (xs : List α) :
    x ∈ xs.destutter (· ≠ ·) ↔ x ∈ xs := by
  cases xs with
  | nil => simp
  | cons a xs => rw [List.destutter_cons', mem_destutter', List.mem_cons]

theorem mem_foldl_note (vin : List E) (terms : List (Term E)) (state : List E × List Nat)
    (index : Nat) :
    index ∈ (terms.foldl (Term.note vin) state).2 ↔
      index ∈ state.2 ∨ ∃ term ∈ terms, term.g.toNat = index ∧ ¬term.Holds vin := by
  induction terms generalizing state with
  | nil => simp
  | cons term terms ih =>
    rw [List.foldl_cons, ih]
    by_cases holds : term.Holds vin
    · simp [Term.note, holds]
    · simp [Term.note, holds, or_assoc, eq_comm]

variable {layer : Layer}

/-- **One layer in range**: its outputs, and the wires of its failing assertions. -/
theorem evalLayer_marks {noutput : Nat} {constants vin : List E}
    (inRange : layer.WiresInRange constants vin.length noutput) :
    ∃ failedWires, evalLayer noutput layer constants vin =
        .ok (layerOutputs noutput vin (layer.termsOf constants), failedWires) ∧
      ∀ index, index ∈ failedWires ↔
        ∃ term ∈ layer.termsOf constants, term.g.toNat = index ∧ ¬term.Holds vin := by
  refine ⟨_, evalLayer_eq_ok inRange, fun index => ?_⟩
  rw [mem_destutter, List.mem_mergeSort, mem_foldl_note]
  simp

/-! ### The layers -/

/-- The state after the layers from `l` on: their values, whether an assertion failed, and its
symbol marked. -/
structure Diagnosed (raw : RawCircuit E) (symbols : CircuitDebugSymbols τ) (inputs : List E) (l : Nat)
    (state : EvalState E) : Prop where
  currentV : state.currentV =
    (circuitValues raw.constants inputs (outputsAt raw l) (raw.layers.drop l)).outputs
  overallFailed : state.overallFailed = true ↔
    ∃ wire : WireRef, l ≤ wire.layer ∧ raw.AssertionFails inputs wire
  fates : ∀ id, state.fates.Failed id ↔ ∃ wire : WireRef, l ≤ wire.layer ∧
    symbols.getId wire = some id ∧ raw.AssertionFails inputs wire

variable {raw : RawCircuit E} {symbols : CircuitDebugSymbols τ} {inputs : List E}
  {symbol : AssertionSymbol}

/-- The wires of the layers from `l` on are those of layer `l` and those after. -/
theorem exists_layer_split (l : Nat) (holds : WireRef → Prop) (id : AssertionId) :
    (∃ wire : WireRef, l ≤ wire.layer ∧ symbols.getId wire = some id ∧ holds wire) ↔
      (∃ index, symbols.getId ⟨l, index⟩ = some id ∧ holds ⟨l, index⟩) ∨
        ∃ wire : WireRef, l + 1 ≤ wire.layer ∧ symbols.getId wire = some id ∧ holds wire := by
  constructor
  · rintro ⟨⟨l', index⟩, above, attached, here⟩
    rcases Nat.eq_or_lt_of_le above with rfl | later
    · exact .inl ⟨index, attached, here⟩
    · exact .inr ⟨_, later, attached, here⟩
  · rintro (⟨index, attached, here⟩ | ⟨wire, later, attached, here⟩)
    · exact ⟨⟨l, index⟩, le_rfl, attached, here⟩
    · exact ⟨wire, Nat.le_of_succ_le later, attached, here⟩

theorem diagnosed_compileStep {l : Nat} (found : raw.layers[l]? = some layer) {state : EvalState E}
    (before : Diagnosed raw symbols inputs (l + 1) state)
    (inRange : layer.WiresInRange raw.constants state.currentV.length (outputsAt raw l)) :
    ∃ state', compileStep symbols raw state (layer, l) = .ok state' ∧
      Diagnosed raw symbols inputs l state' := by
  obtain ⟨failedWires, evaluated, failing⟩ := evalLayer_marks inRange
  have bound : l < raw.layers.length := (List.getElem?_eq_some_iff.mp found).1
  have reads : raw.valuesInto inputs l = state.currentV := before.currentV.symm
  have failsHere : ∀ index, raw.AssertionFails inputs ⟨l, index⟩ ↔ index ∈ failedWires := by
    intro index
    rw [failing, ← reads]
    simp [RawCircuit.AssertionFails, found]
  rw [compileStep, noutput_eq bound.le, ok_bind, evaluated, ok_bind]
  refine ⟨_, rfl, ?_, ?_, fun id => ?_⟩
  · have split : raw.layers.drop l = layer :: raw.layers.drop (l + 1) := by
      rw [List.drop_eq_getElem_cons bound, (List.getElem?_eq_some_iff.mp found).2]
    have width : outputsAt raw (l + 1) = layer.nw := by simp [outputsAt, found]
    rw [split, circuitValues, ← width, ← before.currentV]
  · have empty : failedWires.isEmpty = false ↔ ∃ index, index ∈ failedWires := by
      rw [List.isEmpty_eq_false_iff_exists_mem]
    rw [Bool.or_eq_true, before.overallFailed, Bool.not_eq_true', empty]
    constructor
    · rintro (⟨wire, later, fails⟩ | ⟨index, member⟩)
      · exact ⟨wire, Nat.le_of_succ_le later, fails⟩
      · exact ⟨⟨l, index⟩, le_rfl, (failsHere index).mpr member⟩
    · rintro ⟨⟨l', index⟩, above, fails⟩
      rcases Nat.eq_or_lt_of_le above with rfl | later
      · exact .inr ⟨index, (failsHere index).mp fails⟩
      · exact .inl ⟨_, later, fails⟩
  · rw [CircuitDebugSymbols.failed_foldl_record, before.fates, exists_layer_split l]
    refine or_congr_left (exists_congr fun index => ?_)
    rw [failsHere, and_comm]

/-- **The loop over the layers** marks the symbols of the failing assertions. -/
theorem diagnosed_compileSteps {layers : List Layer} (done : List Layer)
    (split : raw.layers = done ++ layers)
    (inRange : LayersInRange raw.constants inputs.length (outputsAt raw done.length) layers) :
    ∃ state, (layers.zipIdx done.length).reverse.foldlM (compileStep symbols raw)
        ⟨inputs, ∅, false⟩ = .ok state ∧ Diagnosed raw symbols inputs done.length state := by
  induction layers generalizing done with
  | nil =>
    have none : ∀ wire : WireRef, done.length ≤ wire.layer → ¬raw.AssertionFails inputs wire := by
      rintro wire above ⟨layer, found, _⟩
      rw [split, List.append_nil, List.getElem?_eq_none above] at found
      cases found
    refine ⟨_, rfl, ?_, ?_, fun id => ?_⟩
    · rw [split, List.append_nil, List.drop_length]
      rfl
    · simpa using none
    · refine iff_of_false ?_ ?_
      · rintro ⟨message, marked⟩
        cases marked
      · rintro ⟨wire, above, _, fails⟩
        exact none wire above fails
  | cons layer layers ih =>
    have split' : raw.layers = (done ++ [layer]) ++ layers := by simpa using split
    have width : outputsAt raw (done ++ [layer]).length = layer.nw := by
      simp [outputsAt, split']
    have found : raw.layers[done.length]? = some layer := by simp [split]
    obtain ⟨here, rest⟩ := inRange
    obtain ⟨state, later, diagnosed⟩ := ih (done ++ [layer]) split' (by rw [width]; exact rest)
    rw [List.length_append, List.length_singleton] at later diagnosed
    have reads : state.currentV.length =
        if layers = [] then inputs.length else layer.nw := by
      have dropped : raw.layers.drop (done.length + 1) = layers := by simp [split]
      rw [diagnosed.currentV, dropped, length_outputs]
      simp [outputsAt, found]
    rw [← reads] at here
    obtain ⟨state', step, diagnosed'⟩ := diagnosed_compileStep found diagnosed here
    refine ⟨state', ?_, diagnosed'⟩
    rw [List.zipIdx_cons, List.reverse_cons, List.foldlM_append, later, ok_bind]
    simp only [List.foldlM_cons, List.foldlM_nil, step, ok_bind, pure_eq_ok]

/-! ### The outputs -/

theorem CircuitDebugSymbols.getId_eq_id (wires : (symbols.symbols.map AssertionSymbol.wire).Nodup)
    (ids : (symbols.symbols.map AssertionSymbol.id).Nodup)
    (member : symbol ∈ symbols.symbols) (wire : WireRef) :
    symbols.getId wire = some symbol.id ↔ symbol.wire = wire := by
  rw [CircuitDebugSymbols.getId_eq_some wires]
  constructor
  · intro attached
    rw [← List.inj_on_of_nodup_map ids attached member rfl]
  · rintro rfl
    exact member

theorem failed_foldl_checkOutput (wires : (symbols.symbols.map AssertionSymbol.wire).Nodup)
    (ids : (symbols.symbols.map AssertionSymbol.id).Nodup)
    (member : symbol ∈ symbols.symbols) {outputs : List (E × Nat)}
    (different : (outputs.map Prod.snd).Nodup) (state : Fates × Bool) :
    (outputs.foldl (checkOutput symbols) state).1.Failed symbol.id ↔
      (∃ output ∈ outputs, symbol.wire = ⟨0, output.2⟩ ∧ output.1 ≠ 0) ∨
        ((∀ output ∈ outputs, symbol.wire ≠ ⟨0, output.2⟩) ∧ state.1.Failed symbol.id) := by
  induction outputs generalizing state with
  | nil => simp
  | cons output outputs ih =>
    obtain ⟨fresh, different⟩ := List.nodup_cons.mp different
    have verdict : (checkOutput symbols state output).1.Failed symbol.id ↔
        (symbol.wire = ⟨0, output.2⟩ ∧ output.1 ≠ 0) ∨
          (symbol.wire ≠ ⟨0, output.2⟩ ∧ state.1.Failed symbol.id) := by
      rw [checkOutput, CircuitDebugSymbols.failed_record]
      simp only [ne_eq, CircuitDebugSymbols.getId_eq_id wires ids member]
      by_cases zero : output.1 = 0 <;> simp [zero]
    rw [List.foldl_cons, ih different, verdict]
    by_cases here : symbol.wire = ⟨0, output.2⟩
    · -- The symbol of this output is the symbol of no later one.
      have later : ∀ next ∈ outputs, symbol.wire ≠ ⟨0, next.2⟩ := by
        intro next isNext same
        have index : output.2 = next.2 := congrArg WireRef.index (here.symm.trans same)
        exact fresh (index ▸ List.mem_map_of_mem isNext)
      constructor
      · rintro (⟨next, isNext, same, _⟩ | ⟨_, ⟨_, nonzero⟩ | ⟨away, _⟩⟩)
        · exact absurd same (later next isNext)
        · exact .inl ⟨output, List.mem_cons_self, here, nonzero⟩
        · exact absurd here away
      · rintro (⟨next, isNext, same, nonzero⟩ | ⟨away, _⟩)
        · rcases List.mem_cons.mp isNext with rfl | isLater
          · exact .inr ⟨later, .inl ⟨here, nonzero⟩⟩
          · exact absurd same (later next isLater)
        · exact absurd here (away output List.mem_cons_self)
    · simp [here]

/-! ### The report -/

theorem outputFails_iff :
    raw.OutputFails inputs wire ↔ ∃ output ∈
      (circuitValues raw.constants inputs raw.noutput raw.layers).outputs.zipIdx,
      wire = ⟨0, output.2⟩ ∧ output.1 ≠ 0 := by
  simp only [List.mem_zipIdx_iff_getElem?]
  constructor
  · obtain ⟨l, i⟩ := wire
    rintro ⟨rfl, nonzero⟩
    rcases found : (circuitValues raw.constants inputs raw.noutput raw.layers).outputs[i]? with
      _ | output
    · exact absurd (by rw [List.getD_eq_getElem?_getD, found]; rfl) nonzero
    · refine ⟨(output, i), found, rfl, ?_⟩
      rwa [List.getD_eq_getElem?_getD, found] at nonzero
  · rintro ⟨output, found, rfl, nonzero⟩
    refine ⟨rfl, ?_⟩
    rwa [List.getD_eq_getElem?_getD, found]

/-- The evaluation of an input of the right length succeeds when no wire is wrong; a symbol is
marked for its output, or for its assertion if its wire is no output. -/
theorem compileEval_diagnosis (covers : symbols.Covers raw) (inRange : raw.InRange)
    (size : inputs.length = raw.ninput) :
    ∃ evaluated, compileEval raw symbols inputs = .ok evaluated ∧
      (evaluated.result = .ok () ↔ ∀ wire, ¬raw.NonzeroAt inputs wire) ∧
      ∀ symbol ∈ symbols.symbols, evaluated.fates.Failed symbol.id ↔
        raw.OutputFails inputs symbol.wire ∨ (raw.AssertionFails inputs symbol.wire ∧ ∀ output ∈
          (circuitValues raw.constants inputs raw.noutput raw.layers).outputs.zipIdx,
            symbol.wire ≠ ⟨0, output.2⟩) := by
  have layers : LayersInRange raw.constants inputs.length raw.noutput raw.layers := by
    rw [size]
    exact inRange
  obtain ⟨state, loop, diagnosed⟩ : ∃ state, raw.layers.zipIdx.reverse.foldlM
      (compileStep symbols raw) ⟨inputs, ∅, false⟩ = .ok state ∧
      Diagnosed raw symbols inputs 0 state := diagnosed_compileSteps [] rfl layers
  have values : state.currentV =
      (circuitValues raw.constants inputs raw.noutput raw.layers).outputs := diagnosed.currentV
  have different : (state.currentV.zipIdx.map Prod.snd).Nodup := by
    rw [List.zipIdx_map_snd]
    exact List.nodup_range'
  obtain ⟨verdict, _⟩ :=
    foldl_checkOutput symbols state.currentV.zipIdx (state.fates, state.overallFailed)
  have passes : (state.currentV.zipIdx.foldl (checkOutput symbols)
      (state.fates, state.overallFailed)).2 = false ↔ ∀ wire, ¬raw.NonzeroAt inputs wire := by
    have assertions : state.overallFailed = false ↔ ∀ wire, ¬raw.AssertionFails inputs wire := by
      rw [← Bool.not_eq_true, diagnosed.overallFailed]
      simp
    have outputs : (∀ output ∈ state.currentV.zipIdx, output.1 = 0) ↔
        ∀ wire, ¬raw.OutputFails inputs wire := by
      simp only [outputFails_iff, ← values]
      exact ⟨fun zero wire ⟨output, member, _, nonzero⟩ => nonzero (zero output member),
        fun none output member => not_not.mp fun nonzero =>
          none ⟨0, output.2⟩ ⟨output, member, rfl, nonzero⟩⟩
    rw [verdict, assertions, outputs, ← forall_and]
    simp only [RawCircuit.NonzeroAt, not_or, and_comm]
  simp only [compileEval, processInputs, if_pos size, loop, ok_bind]
  refine ⟨_, rfl, ?_, fun symbol member => ?_⟩
  · rw [← passes]
    split <;> simp_all
  · rw [failed_foldl_checkOutput covers.wires covers.ids member different, diagnosed.fates, values,
      ← outputFails_iff]
    refine or_congr_right (and_comm.trans (and_congr_left fun _ => ?_))
    simp [CircuitDebugSymbols.getId_eq_id covers.wires covers.ids member]

theorem CircuitDebugSymbols.Covers.exists_symbol (covers : symbols.Covers raw)
    (size : (circuitValues raw.constants inputs raw.noutput raw.layers).outputs.length =
      raw.noutput) (nonzero : raw.NonzeroAt inputs wire) :
    ∃ symbol ∈ symbols.symbols, symbol.wire = wire := by
  rw [← List.mem_map]
  rcases nonzero with isOutput | ⟨layer, found, term, member, index, fails⟩
  · obtain ⟨output, member, rfl, _⟩ := outputFails_iff.mp isOutput
    refine covers.output _ ?_
    rw [← size]
    exact List.snd_lt_of_mem_zipIdx member
  · obtain ⟨l, i⟩ := wire
    obtain rfl : term.g.toNat = i := index
    exact covers.assertion found term member (Classical.not_imp.mp fails).1

theorem RawCircuit.InRange.first {raw : RawCircuit E} (inRange : raw.InRange)
    (found : raw.layers[0]? = some layer) :
    ∃ ninput, layer.WiresInRange raw.constants ninput raw.noutput := by
  obtain ⟨rest, split⟩ : ∃ rest, raw.layers = layer :: rest := by
    rcases layers : raw.layers with _ | ⟨first, rest⟩
    · rw [layers] at found
      cases found
    · rw [layers] at found
      exact ⟨rest, by rw [Option.some.inj found]⟩
  rw [RawCircuit.InRange, split] at inRange
  exact ⟨_, inRange.1⟩

namespace Compile

/-- The assertion that the input is zero: it has no depth, and becomes a term of layer 0. -/
def assertInput : QuadCircuit Goldi := ⟨[.input 0, .input 1, .assert0 1]⟩

/-- The circuit it is scheduled to. -/
def assertInputCircuit : RawCircuit Goldi :=
  ⟨2, 1, 1, 0, 0, [0], [⟨2, 1, [⟨0, 1, 1, 0⟩], [[0]], [0]⟩]⟩

/-- The symbol of the assertion. -/
def assertInputSymbols : CircuitDebugSymbols Unit := ⟨[⟨⟨0, 0⟩, 0⟩], ()⟩

theorem schedule_assertInput :
    (V1.schedule goldi (fun _ => Vector.replicate 32 0) assertInput [(2, 0)] 1 0 () :
      Exec String _) = .ok (⟨assertInputCircuit, Vector.replicate 32 0⟩, ⟨2, 1, 1, 1, 1, 1, 1⟩,
        assertInputSymbols) := by
  with_unfolding_all rfl

theorem terms_assertInput :
    (⟨2, 1, [⟨0, 1, 1, 0⟩], [[0]], [0]⟩ : Layer).termsOf [(0 : Goldi)] = [⟨0, 0, 1, 1⟩] := rfl

theorem covers_assertInput : assertInputSymbols.Covers assertInputCircuit where
  layers := List.cons_ne_nil _ _
  wires := List.nodup_singleton _
  ids := List.nodup_singleton _
  output := by decide
  assertion := by
    intro l layer found term member _
    rcases l with _ | l
    · obtain rfl := Option.some.inj found
      obtain rfl := List.mem_singleton.mp (terms_assertInput ▸ member)
      decide
    · cases found

theorem inRange_assertInput : assertInputCircuit.InRange := by
  refine ⟨⟨by decide, ?_⟩, trivial⟩
  intro terms expands term member
  obtain rfl := Except.ok.inj expands
  obtain rfl := List.mem_singleton.mp member
  exact ⟨by decide, by decide, by decide⟩

end Compile

end Longfellow
