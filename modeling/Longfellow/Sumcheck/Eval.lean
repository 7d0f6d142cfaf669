/-
**Evaluation of a layered circuit** (`runtime/sumcheck-v1/src/eval.rs`,
`runtime/sumcheck-v2/src/eval.rs`).

Layers are stored from the outputs to the inputs and evaluated in reverse. A term with coefficient
zero asserts that the product of its two wires vanishes; every other term adds to an output. The
two versions differ in their messages only.

* `Evaluates`, `evalCircuit_spec` — **a circuit that evaluates**: each layer maps its inputs to the
  inputs of the layer before, and the outputs of the circuit are zero.
-/

import Longfellow.Circuit.Basic
import Longfellow.Lib.Dot

namespace Longfellow

open Lib

variable {E : Type} [CommRing E] [DecidableEq E]

/-- The messages of a version. -/
structure EvalMessages (E : Type) where
  gate : Term E → E → E → String
  output : Nat → E → String

/-- The messages of version 1, over a way to print elements. -/
def EvalMessages.v1 (repr : E → String) : EvalMessages E where
  gate term wr wl := s!"gate multiplication constraint not satisfied: left_wire={term.h1}, " ++
    s!"right_wire={term.h0}, left_val={repr wl}, right_val={repr wr}, " ++
    s!"computed_val={repr (wl * wr)}"
  output i val := s!"Circuit output at index {i} is not zero: {repr val}"

/-- The messages of version 2. -/
def EvalMessages.v2 : EvalMessages E where
  gate term _ _ :=
    s!"gate multiplication constraint not satisfied: wire_l={term.h0}, wire_r={term.h1}"
  output g _ := s!"Circuit output at index {g} is not zero"

variable (messages : EvalMessages E)

/-- Check an assertion, or add a term to its output. Version 2 leaves out a multiplication by
one. -/
def evalTerm (w v : List E) (term : Term E) : Exec String (List E) := do
  let w0 ← getAt w term.h0.toNat
  let w1 ← getAt w term.h1.toNat
  if term.k = 0 then do
    check (w0 * w1 = 0) (messages.gate term w0 w1)
    pure v
  else do
    let old ← getAt v term.g.toNat
    setAt v term.g.toNat (old + term.k * (w0 * w1))

/-- Evaluate one layer with `nv` outputs. -/
def evalQuad (nv : Nat) (w : List E) (layer : Layer) (constants : List E) :
    Exec String (List E) :=
  layer.tryForEachTerm constants (evalTerm messages w) (List.replicate nv 0)

/-- Evaluate layer `l` of a circuit and keep its inputs. -/
def evalStep (raw : RawCircuit E) (state : List E × List (List E)) (layer : Layer × Nat) :
    Exec String (List E × List (List E)) := do
  let nv ← (if layer.2 = 0 then pure raw.noutput
    else do
      let before ← getAt raw.layers (layer.2 - 1)
      pure before.nw : Exec String Nat)
  let v ← mapErr (fun e => raise
    s!"Witness does not satisfy circuit constraints at layer {layer.2}: {e}")
    (evalQuad messages nv state.1 layer.1 raw.constants)
  pure (v, state.1 :: state.2)

/-- Check that the outputs from index `i` on are zero. -/
def checkOutputs : Nat → List E → Exec String Unit
  | _, [] => pure ()
  | i, val :: v => do
    check (val = 0) (messages.output i val)
    checkOutputs (i + 1) v

/-- Evaluate a circuit; return the inputs of every layer, from the outputs to the inputs. -/
def evalCircuit (w : List E) (raw : RawCircuit E) : Exec String (List (List E)) := do
  let (v, inLayers) ← raw.layers.zipIdx.reverse.foldlM (evalStep messages raw) (w, [])
  checkOutputs messages 0 v
  pure inLayers

variable {messages}

/-! ### One layer -/

/-- What a layer that evaluates says about one of its terms. -/
structure TermHolds (w : List E) (n : Nat) (term : Term E) : Prop where
  h0 : term.h0.toNat < w.length
  h1 : term.h1.toNat < w.length
  g : term.k ≠ 0 → term.g.toNat < n
  asserts : term.k = 0 → w.getD term.h0.toNat 0 * w.getD term.h1.toNat 0 = 0

/-- The product of the wires of a term. -/
def Term.product (w : List E) (term : Term E) : E :=
  w.getD term.h0.toNat 0 * w.getD term.h1.toNat 0

omit [DecidableEq E] in
theorem getD_of_getElem? {x : List E} {i : Nat} {a : E} (found : x[i]? = some a) :
    x.getD i 0 = a := by
  rw [List.getD_eq_getElem?_getD, found, Option.getD_some]

variable {v : List E}

theorem evalTerm_spec {w v' : List E} {term : Term E} (ran : evalTerm messages w v term = .ok v') :
    TermHolds w v.length term ∧ v'.length = v.length ∧
      ∀ a : List E, a.length = v.length →
        dot v' a = dot v a + term.k * a.getD term.g.toNat 0 * term.product w := by
  obtain ⟨w0, first, ran⟩ := bind_eq_ok.mp ran
  obtain ⟨w1, second, ran⟩ := bind_eq_ok.mp ran
  rw [getAt_eq_ok] at first second
  have here : term.product w = w0 * w1 := by
    rw [Term.product, getD_of_getElem? first, getD_of_getElem? second]
  obtain ⟨bound0, _⟩ := List.getElem?_eq_some_iff.mp first
  obtain ⟨bound1, _⟩ := List.getElem?_eq_some_iff.mp second
  split at ran
  · rename_i zero
    obtain ⟨_, checked, ran⟩ := bind_eq_ok.mp ran
    obtain rfl := Except.ok.inj ran
    have vanishes : w0 * w1 = 0 := check_eq_ok.mp checked
    refine ⟨⟨bound0, bound1, fun nonzero => absurd zero nonzero, fun _ => ?_⟩, rfl, ?_⟩
    · exact here.trans vanishes
    · intro a _
      rw [here, vanishes, mul_zero, add_zero]
  · rename_i nonzero
    obtain ⟨old, found, ran⟩ := bind_eq_ok.mp ran
    rw [getAt_eq_ok] at found
    obtain ⟨bound, rfl⟩ := setAt_eq_ok.mp ran
    refine ⟨⟨bound0, bound1, fun _ => bound, fun zero => absurd zero nonzero⟩, by simp, ?_⟩
    intro a size
    have there : a[term.g.toNat]? = some (a.getD term.g.toNat 0) := by
      rw [List.getD_eq_getElem _ _ (size.symm ▸ bound), List.getElem?_eq_getElem]
    rw [dot_set_add _ found there, here]
    ring

/-- **One layer**: its outputs through their inner products, and its assertions. -/
theorem evalQuad_spec {nv : Nat} {w : List E} {layer : Layer} {constants : List E}
    (ran : evalQuad messages nv w layer constants = .ok v) :
    ∃ terms, (layer.terms constants : Exec String _) = .ok terms ∧ v.length = nv ∧
      (∀ term ∈ terms, TermHolds w nv term) ∧ ∀ a : List E, a.length = nv →
        dot v a = (terms.map fun term => term.k * a.getD term.g.toNat 0 * term.product w).sum := by
  obtain ⟨terms, expands, folded⟩ := Layer.terms_of_tryForEachTerm ran
  refine ⟨terms, expands, ?_⟩
  refine foldlM_preserves (fun done v => v.length = nv ∧ (∀ term ∈ done, TermHolds w nv term) ∧
    ∀ a : List E, a.length = nv → dot v a =
      (done.map fun term => term.k * a.getD term.g.toNat 0 * term.product w).sum)
    ⟨by simp, by simp, fun a _ => by simp⟩ ?_ folded
  intro done term v v' _ ⟨size, holds, value⟩ stepped
  obtain ⟨here, size', value'⟩ := evalTerm_spec stepped
  refine ⟨size'.trans size, ?_, ?_⟩
  · intro other member
    rcases List.mem_append.mp member with old | new
    · exact holds other old
    · exact List.mem_singleton.mp new ▸ size ▸ here
  · intro a sized
    rw [value' a (sized.trans size.symm), value a sized, List.map_append, List.sum_append,
      List.map_singleton, List.sum_singleton]

/-! ### The whole circuit -/

/-- The inputs of the layers fit together: each layer maps its inputs to the inputs of the layer
before, or to the outputs. -/
def Evaluates (messages : EvalMessages E) (constants : List E) :
    Nat → List Layer → List (List E) → List E → List E → Prop
  | _, [], ws, outputs, inputs => ws = [] ∧ outputs = inputs
  | nv, layer :: layers, ws, outputs, inputs => ∃ w rest, ws = w :: rest ∧
      evalQuad messages nv w layer constants = .ok outputs ∧
      Evaluates messages constants layer.nw layers rest w inputs

variable {inputs : List E}

theorem length_inLayers {messages : EvalMessages E} {constants : List E} {nv : Nat}
    {layers : List Layer} {ws : List (List E)} {outputs : List E}
    (evaluates : Evaluates messages constants nv layers ws outputs inputs) :
    ws.length = layers.length := by
  induction layers generalizing nv ws outputs with
  | nil =>
    obtain ⟨rfl, _⟩ := evaluates
    rfl
  | cons layer layers ih =>
    obtain ⟨w, rest, rfl, _, later⟩ := evaluates
    rw [List.length_cons, ih later, List.length_cons]

/-- The number of outputs of layer `l`. -/
def outputsAt (raw : RawCircuit E) (l : Nat) : Nat :=
  if l = 0 then raw.noutput else ((raw.layers[l - 1]?).map Layer.nw).getD 0

variable {inLayers : List (List E)}

theorem evaluates_of_foldlM {raw : RawCircuit E} {layers : List Layer} (done : List Layer)
    (split : raw.layers = done ++ layers)
    (ran : (layers.zipIdx done.length).reverse.foldlM (evalStep messages raw) (inputs, []) =
      .ok (v, inLayers)) :
    Evaluates messages raw.constants (outputsAt raw done.length) layers inLayers v inputs := by
  induction layers generalizing done v inLayers with
  | nil =>
    obtain ⟨rfl, rfl⟩ := Prod.mk.inj (Except.ok.inj ran)
    exact ⟨rfl, rfl⟩
  | cons layer layers ih =>
    rw [List.zipIdx_cons, List.reverse_cons, List.foldlM_append] at ran
    obtain ⟨⟨w, later⟩, ranLater, ran⟩ := bind_eq_ok.mp ran
    rw [List.foldlM_cons] at ran
    obtain ⟨state, stepped, ran⟩ := bind_eq_ok.mp ran
    obtain rfl := Except.ok.inj ran
    rw [evalStep] at stepped
    obtain ⟨nv, count, stepped⟩ := bind_eq_ok.mp stepped
    obtain ⟨outputs, evaluated, stepped⟩ := bind_eq_ok.mp stepped
    obtain ⟨rfl, rfl⟩ := Prod.mk.inj (Except.ok.inj stepped)
    rw [mapErr_eq_ok fun e => raise_ne_ok _ _] at evaluated
    have size : nv = outputsAt raw done.length := by
      unfold outputsAt
      split at count
      · rename_i first
        rw [if_pos first]
        exact (Except.ok.inj count).symm
      · rename_i later
        obtain ⟨before, found, count⟩ := bind_eq_ok.mp count
        rw [if_neg later, getAt_eq_ok.mp found]
        exact (Except.ok.inj count).symm
    have split' : raw.layers = (done ++ [layer]) ++ layers := by simpa using split
    have next := ih (done ++ [layer]) split' (by simpa using ranLater)
    have width : outputsAt raw (done ++ [layer]).length = layer.nw := by
      simp [outputsAt, split']
    exact ⟨w, later, rfl, size ▸ evaluated, width ▸ next⟩

theorem zeros_of_checkOutputs {start : Nat} {u : Unit}
    (checked : checkOutputs messages start v = .ok u) : ∀ val ∈ v, val = 0 := by
  induction v generalizing start with
  | nil => simp
  | cons val v ih =>
    obtain ⟨_, here, later⟩ := bind_eq_ok.mp checked
    intro other member
    rcases List.mem_cons.mp member with rfl | member
    · exact check_eq_ok.mp here
    · exact ih later other member

/-- **A circuit that evaluates**: its layers fit together and its outputs are zero. -/
theorem evalCircuit_spec {raw : RawCircuit E} (ran : evalCircuit messages inputs raw = .ok inLayers) :
    ∃ outputs, Evaluates messages raw.constants raw.noutput raw.layers inLayers outputs inputs ∧
      ∀ val ∈ outputs, val = 0 := by
  obtain ⟨⟨v, ws⟩, loop, ran⟩ := bind_eq_ok.mp ran
  obtain ⟨_, zeros, ran⟩ := bind_eq_ok.mp ran
  obtain rfl := Except.ok.inj ran
  refine ⟨v, evaluates_of_foldlM [] rfl (by simpa using loop), zeros_of_checkOutputs zeros⟩

end Longfellow
