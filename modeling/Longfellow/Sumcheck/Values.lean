/-
**The values of a circuit with indices in range.**

What the evaluators compute, as functions that cannot fail: the outputs of a layer are sums of
products, an assertion holds or fails, and a circuit is the composition of its layers. For a
circuit whose indices are in range the evaluators of the sumcheck agree with them and never panic.

* `decides_evalCircuit` — **the evaluators return exactly when the values are accepted**, with the
  inputs of every layer, and otherwise with an error.
-/

import Longfellow.Sumcheck.Eval

namespace Longfellow

open Lib

variable {E : Type}

/-! ### Indices in range -/

/-- The wires of a term exist. -/
structure Term.InRange (ninput noutput : Nat) (term : Term E) : Prop where
  h0 : term.h0.toNat < ninput
  h1 : term.h1.toNat < ninput
  g : term.g.toNat < noutput

/-- Every index of a layer with `ninput` inputs and `noutput` outputs is in range. -/
structure Layer.WiresInRange (layer : Layer) (constants : List E) (ninput noutput : Nat) : Prop where
  indices : layer.InRange constants.length
  wires : ∀ {terms}, (layer.terms constants : Exec String _) = .ok terms →
    ∀ term ∈ terms, term.InRange ninput noutput

/-- The terms of a layer that expands. -/
def Layer.termsOf (layer : Layer) (constants : List E) : List (Term E) :=
  (layer.terms constants : Exec String _).toOption.getD []

variable {layer : Layer} {constants : List E} {noutput : Nat}

theorem Layer.WiresInRange.terms_eq {ninput : Nat}
    (inRange : layer.WiresInRange constants ninput noutput) :
    (layer.terms constants : Exec String _) = .ok (layer.termsOf constants) := by
  obtain ⟨terms, expands, _⟩ := Layer.terms_returns (ε := String) inRange.indices
  rw [Layer.termsOf, expands]
  rfl

theorem Layer.WiresInRange.term {ninput : Nat}
    (inRange : layer.WiresInRange constants ninput noutput) {term : Term E}
    (member : term ∈ layer.termsOf constants) : term.InRange ninput noutput :=
  inRange.wires inRange.terms_eq term member

/-- Every index of a list of layers is in range: the outputs of a layer are the inputs of the one
before it, and the inputs of the last are the inputs of the circuit. -/
def LayersInRange (constants : List E) (ninput : Nat) : Nat → List Layer → Prop
  | _, [] => True
  | noutput, layer :: layers =>
    layer.WiresInRange constants (if layers = [] then ninput else layer.nw) noutput ∧
      LayersInRange constants ninput layer.nw layers

/-- Every index of a circuit is in range. -/
def RawCircuit.InRange (raw : RawCircuit E) : Prop :=
  LayersInRange raw.constants raw.ninput raw.noutput raw.layers

/-! ### Values -/

variable [CommRing E] [DecidableEq E]

/-- The assertion of a term holds, if it is one. -/
def Term.Holds (w : List E) (term : Term E) : Prop := term.k = 0 → term.product w = 0

instance (w : List E) (term : Term E) : Decidable (term.Holds w) :=
  inferInstanceAs (Decidable (_ → _))

/-- Add a term to its output, unless it is an assertion. -/
def Term.addTo (w v : List E) (term : Term E) : List E :=
  if term.k = 0 then v
  else v.set term.g.toNat (v.getD term.g.toNat 0 + term.k * term.product w)

/-- The outputs of a layer on the inputs `w`. -/
def layerOutputs (noutput : Nat) (w : List E) (terms : List (Term E)) : List E :=
  terms.foldl (Term.addTo w) (List.replicate noutput 0)

/-- The inputs of every layer, the outputs, and whether every assertion holds. -/
structure Values (E : Type) where
  inLayers : List (List E)
  outputs : List E
  holds : Prop

/-- The values of a list of layers with `noutput` outputs. -/
def circuitValues (constants inputs : List E) : Nat → List Layer → Values E
  | _, [] => ⟨[], inputs, True⟩
  | noutput, layer :: layers =>
    let later := circuitValues constants inputs layer.nw layers
    let terms := layer.termsOf constants
    ⟨later.outputs :: later.inLayers, layerOutputs noutput later.outputs terms,
      later.holds ∧ ∀ term ∈ terms, term.Holds later.outputs⟩

/-- The circuit accepts its inputs: every assertion holds and every output is zero. -/
def RawCircuit.Accepts (raw : RawCircuit E) (inputs : List E) : Prop :=
  let values := circuitValues raw.constants inputs raw.noutput raw.layers
  values.holds ∧ ∀ val ∈ values.outputs, val = 0

/-! ### One layer -/

@[simp] theorem Term.length_addTo (w v : List E) (term : Term E) :
    (term.addTo w v).length = v.length := by
  unfold Term.addTo
  split
  · rfl
  · rw [List.length_set]

@[simp] theorem length_layerOutputs (noutput : Nat) (w : List E) (terms : List (Term E)) :
    (layerOutputs noutput w terms).length = noutput := by
  have kept : ∀ v : List E, (terms.foldl (Term.addTo w) v).length = v.length := by
    induction terms with
    | nil => exact fun v => rfl
    | cons term terms ih => exact fun v => (ih _).trans (Term.length_addTo w v term)
  rw [layerOutputs, kept, List.length_replicate]

variable {messages : EvalMessages E}

omit [DecidableEq E] in
theorem getAt_eq_getD {ε : Type} {xs : List E} {i : Nat} (bound : i < xs.length) :
    (getAt xs i : Exec ε E) = .ok (xs.getD i 0) := by
  rw [getAt_of_lt bound, List.getD_eq_getElem _ _ bound]

theorem decides_evalTerm {w v : List E} {term : Term E} (inRange : term.InRange w.length v.length) :
    Decides (evalTerm messages w v term) (term.Holds w) (term.addTo w v) := by
  rw [evalTerm, getAt_eq_getD inRange.h0, ok_bind, getAt_eq_getD inRange.h1, ok_bind]
  by_cases zero : term.k = 0
  · rw [if_pos zero, Term.addTo, if_pos zero]
    refine ((decides_check _ _).andThen (pure_eq_ok v)).congr ?_
    exact ⟨fun vanishes _ => vanishes, fun holds => holds zero⟩
  · rw [if_neg zero, Term.addTo, if_neg zero, getAt_eq_getD inRange.g, ok_bind,
      setAt_of_lt inRange.g]
    exact ⟨fun _ => rfl, fun fails => (fails fun isZero => absurd isZero zero).elim⟩

/-- **One layer in range**: it returns its outputs exactly when its assertions hold. -/
theorem decides_evalQuad {w : List E} (inRange : layer.WiresInRange constants w.length noutput) :
    Decides (evalQuad messages noutput w layer constants)
      (∀ term ∈ layer.termsOf constants, term.Holds w)
      (layerOutputs noutput w (layer.termsOf constants)) := by
  rw [evalQuad, Layer.tryForEachTerm_eq _ inRange.terms_eq]
  refine decides_foldlM (fun v => v.length = noutput) List.length_replicate ?_
  intro v term member size
  refine ⟨decides_evalTerm (size ▸ inRange.term member), ?_⟩
  rw [Term.length_addTo, size]

/-! ### The whole circuit -/

theorem length_outputs (constants inputs : List E) (noutput : Nat) (layers : List Layer) :
    (circuitValues constants inputs noutput layers).outputs.length =
      if layers = [] then inputs.length else noutput := by
  cases layers with
  | nil => rfl
  | cons layer layers => exact length_layerOutputs _ _ _

variable {raw : RawCircuit E}

omit [CommRing E] [DecidableEq E] in
theorem noutput_eq {l : Nat} (bound : l ≤ raw.layers.length) :
    (if l = 0 then pure raw.noutput
      else do
        let before ← getAt raw.layers (l - 1)
        pure before.nw : Exec String Nat) = .ok (outputsAt raw l) := by
  unfold outputsAt
  split
  · rfl
  · have below : l - 1 < raw.layers.length := by omega
    rw [getAt_of_lt below, ok_bind, List.getElem?_eq_getElem below]
    rfl

theorem decides_evalSteps {inputs : List E} {layers : List Layer} (done : List Layer)
    (split : raw.layers = done ++ layers)
    (inRange : LayersInRange raw.constants inputs.length (outputsAt raw done.length) layers) :
    let values := circuitValues raw.constants inputs (outputsAt raw done.length) layers
    Decides ((layers.zipIdx done.length).reverse.foldlM (evalStep messages raw) (inputs, []))
      values.holds (values.outputs, values.inLayers) := by
  induction layers generalizing done with
  | nil => exact decides_pure _
  | cons layer layers ih =>
    have split' : raw.layers = (done ++ [layer]) ++ layers := by simpa using split
    have width : outputsAt raw (done ++ [layer]).length = layer.nw := by
      simp [outputsAt, split']
    have bound : done.length ≤ raw.layers.length := by simp [split]
    obtain ⟨here, rest⟩ := inRange
    have later := ih (done ++ [layer]) split' (by rw [width]; exact rest)
    rw [width, List.length_append, List.length_singleton] at later
    have reads : (circuitValues raw.constants inputs layer.nw layers).outputs.length =
        if layers = [] then inputs.length else layer.nw := length_outputs ..
    rw [← reads] at here
    rw [List.zipIdx_cons, List.reverse_cons, List.foldlM_append]
    refine later.bind fun _ => ?_
    simp only [List.foldlM_cons, List.foldlM_nil, evalStep, noutput_eq bound, ok_bind]
    exact ((decides_evalQuad here).mapErr.andThen (by rfl)).andThen (by rfl)

theorem decides_checkOutputs (start : Nat) (v : List E) :
    Decides (checkOutputs messages start v) (∀ val ∈ v, val = 0) () := by
  induction v generalizing start with
  | nil => exact (decides_pure ()).congr (by simp)
  | cons val v ih =>
    refine ((decides_check _ _).bind fun _ => ih (start + 1)).congr ?_
    exact (List.forall_mem_cons (p := fun val => val = 0)).symm

/-- **A circuit in range evaluates exactly when it accepts**, to the inputs of every layer, and
returns an error otherwise. -/
theorem decides_evalCircuit (messages : EvalMessages E) {inputs : List E} (inRange : raw.InRange)
    (size : inputs.length = raw.ninput) :
    Decides (evalCircuit messages inputs raw) (raw.Accepts inputs)
      (circuitValues raw.constants inputs raw.noutput raw.layers).inLayers := by
  have layers : LayersInRange raw.constants inputs.length raw.noutput raw.layers := by
    rw [size]
    exact inRange
  refine (decides_evalSteps [] rfl layers).bind fun _ => ?_
  exact (decides_checkOutputs 0 _).andThen rfl

end Longfellow
