/-
**Layered circuits** (`core/proto/src/layer.rs`, `core/proto/src/circuit.rs`).

A layer is a compressed list of quadratic terms: tokens select segments, segments list entries of
a table of deltas, and each term's wires are the running sums of the deltas, modulo `2^32`. The
circuit identifier hashes the expanded terms, so it does not depend on the compression.

* `computeId_congr` — **circuits with the same header and the same terms have the same
  identifier**.
-/

import Longfellow.Proto.Util
import Mathlib.Data.List.GetD

namespace Longfellow

open Lib

/-! ### Terms and layers -/

/-- One quadratic term: `k * W[h0] * W[h1]`, added to output `g`. -/
structure Term (E : Type) where
  k : E
  g : UInt32
  h0 : UInt32
  h1 : UInt32
  deriving DecidableEq, Repr

/-- The difference of a term to the one before it, and the index of its coefficient. -/
structure TermDelta where
  g : UInt32
  h0 : UInt32
  h1 : UInt32
  kIndex : UInt32
  deriving DecidableEq, Repr, Inhabited

/-- A compressed layer. -/
structure Layer where
  nw : Nat
  logw : Nat
  deltas : List TermDelta
  deltaSegments : List (List UInt32)
  deltaTokens : List UInt32
  deriving DecidableEq, Repr

/-- A layer of one segment. -/
def Layer.newUncompressed (nw logw : Nat) (deltas : List TermDelta) (deltaSequence : List UInt32) :
    Layer := ⟨nw, logw, deltas, [deltaSequence], [0]⟩

variable {ε E : Type}

/-- The delta indices of a layer in execution order. -/
def Layer.deltaIndices (layer : Layer) : Exec ε (List UInt32) := do
  let segments ← layer.deltaTokens.mapM fun tok => getAt layer.deltaSegments tok.toNat
  pure segments.flatten

/-- The deltas of a layer in execution order. -/
def Layer.deltaSequence (layer : Layer) : Exec ε (List TermDelta) := do
  let indices ← layer.deltaIndices
  indices.mapM fun d => getAt layer.deltas d.toNat

/-- The wires of a term. -/
structure Wires where
  g : UInt32
  h0 : UInt32
  h1 : UInt32
  deriving DecidableEq, Repr

/-- The wires the first term is relative to. -/
def Wires.zero : Wires := ⟨0, 0, 0⟩

/-- The wires of the next term. -/
def Wires.step (prev : Wires) (d : TermDelta) : Wires :=
  ⟨prev.g + d.g, prev.h0 + d.h0, prev.h1 + d.h1⟩

def Term.wires (term : Term E) : Wires := ⟨term.g, term.h0, term.h1⟩

/-- Sum up deltas to terms. -/
def accumulate (constants : List E) : Wires → List TermDelta → Exec ε (List (Term E))
  | _, [] => pure []
  | prev, d :: ds => do
    let next := prev.step d
    let k ← getAt constants d.kIndex.toNat
    let terms ← accumulate constants next ds
    pure (⟨k, next.g, next.h0, next.h1⟩ :: terms)

/-- The terms of a layer. -/
def Layer.terms (layer : Layer) (constants : List E) : Exec ε (List (Term E)) := do
  let deltas ← layer.deltaSequence
  accumulate constants Wires.zero deltas

/-- Run a step on every term of a layer as it is decoded, and stop at the first failure. -/
def Layer.tryForEachTerm {σ : Type} (layer : Layer) (constants : List E)
    (callback : σ → Term E → Exec ε σ) (s : σ) : Exec ε σ := do
  let (_, s) ← layer.deltaTokens.foldlM (fun state tok => do
    let segment ← getAt layer.deltaSegments tok.toNat
    segment.foldlM (fun (prev, s) dIdx => do
      let d ← getAt layer.deltas dIdx.toNat
      let next := prev.step d
      let k ← getAt constants d.kIndex.toNat
      let s ← callback s ⟨k, next.g, next.h0, next.h1⟩
      pure (next, s)) state) (Wires.zero, s)
  pure s

/-- The number of terms of a layer. -/
def Layer.numTerms (layer : Layer) : Exec ε Nat := do
  let segments ← layer.deltaTokens.mapM fun tok => getAt layer.deltaSegments tok.toNat
  pure (segments.map List.length).sum

/-- Every index that the expansion of the layer follows is in range. -/
structure Layer.InRange (layer : Layer) (nconstants : Nat) : Prop where
  tokens : ∀ tok ∈ layer.deltaTokens, tok.toNat < layer.deltaSegments.length
  segments : ∀ segment ∈ layer.deltaSegments, ∀ d ∈ segment, d.toNat < layer.deltas.length
  constants : ∀ d ∈ layer.deltas, d.kIndex.toNat < nconstants

-- The indices are checked entry by entry, not over all values of their type.
instance (layer : Layer) (nconstants : Nat) : Decidable (layer.InRange nconstants) :=
  decidable_of_iff
    ((layer.deltaTokens.all fun tok => decide (tok.toNat < layer.deltaSegments.length)) = true ∧
      (layer.deltaSegments.all fun segment =>
        segment.all fun d => decide (d.toNat < layer.deltas.length)) = true ∧
      (layer.deltas.all fun d => decide (d.kIndex.toNat < nconstants)) = true)
    (by
      simp only [List.all_eq_true, decide_eq_true_eq]
      exact ⟨fun ⟨tokens, segments, constants⟩ => ⟨tokens, segments, constants⟩,
        fun inRange => ⟨inRange.tokens, inRange.segments, inRange.constants⟩⟩)

/-! ### The expansion returns -/

/-- A segment selected by the tokens. -/
def Layer.segmentAt (layer : Layer) (tok : UInt32) : List UInt32 :=
  layer.deltaSegments.getD tok.toNat []

/-- The segments in execution order. -/
def Layer.selected (layer : Layer) : List (List UInt32) := layer.deltaTokens.map layer.segmentAt

variable {layer : Layer} {n : Nat}

section

variable (inRange : layer.InRange n)
include inRange

theorem Layer.InRange.selected_eq :
    (layer.deltaTokens.mapM fun tok => getAt layer.deltaSegments tok.toNat :
      Exec ε (List (List UInt32))) = .ok layer.selected := by
  refine mapM_eq_ok_map fun tok member => ?_
  have bound := inRange.tokens tok member
  rw [getAt_of_lt bound, Layer.segmentAt, List.getD_eq_getElem _ _ bound]

theorem Layer.InRange.numTerms_eq :
    (layer.numTerms : Exec ε Nat) = .ok (layer.selected.map List.length).sum := by
  rw [Layer.numTerms, inRange.selected_eq, ok_bind, pure_eq_ok]

theorem Layer.InRange.mem_selected {segment : List UInt32} (member : segment ∈ layer.selected) :
    segment ∈ layer.deltaSegments := by
  obtain ⟨tok, isToken, rfl⟩ := List.mem_map.mp member
  have bound := inRange.tokens tok isToken
  rw [Layer.segmentAt, List.getD_eq_getElem _ _ bound]
  exact List.getElem_mem bound

theorem Layer.InRange.deltaSequence_eq :
    (layer.deltaSequence : Exec ε (List TermDelta)) =
      .ok (layer.selected.flatten.map fun d => layer.deltas.getD d.toNat default) := by
  rw [Layer.deltaSequence, Layer.deltaIndices, inRange.selected_eq, ok_bind, pure_eq_ok, ok_bind]
  refine mapM_eq_ok_map fun d member => ?_
  obtain ⟨segment, isSelected, inSegment⟩ := List.mem_flatten.mp member
  have bound := inRange.segments segment (inRange.mem_selected isSelected) d inSegment
  rw [getAt_of_lt bound, List.getD_eq_getElem _ _ bound]

end

variable {constants : List E} {deltas : List TermDelta}

theorem accumulate_returns (prev : Wires)
    (inRange : ∀ d ∈ deltas, d.kIndex.toNat < constants.length) :
    ∃ terms, (accumulate constants prev deltas : Exec ε (List (Term E))) = .ok terms ∧
      terms.length = deltas.length := by
  induction deltas generalizing prev with
  | nil => exact ⟨[], rfl, rfl⟩
  | cons d deltas ih =>
    have bound := inRange d (List.mem_cons_self ..)
    obtain ⟨terms, ran, size⟩ :=
      ih (prev.step d) fun later member => inRange later (List.mem_cons_of_mem _ member)
    refine ⟨⟨constants[d.kIndex.toNat], (prev.step d).g, (prev.step d).h0, (prev.step d).h1⟩ ::
      terms, ?_, by rw [List.length_cons, size, List.length_cons]⟩
    rw [accumulate, getAt_of_lt bound, ok_bind, ran, ok_bind, pure_eq_ok]

/-- **A layer in range expands to as many terms as it announces.** -/
theorem Layer.terms_returns (inRange : layer.InRange constants.length) :
    ∃ terms, (layer.terms constants : Exec ε (List (Term E))) = .ok terms ∧
      (layer.numTerms : Exec ε Nat) = .ok terms.length := by
  rw [Layer.terms, inRange.deltaSequence_eq, ok_bind, inRange.numTerms_eq]
  have coefficients : ∀ d ∈ layer.selected.flatten.map fun d => layer.deltas.getD d.toNat default,
      d.kIndex.toNat < constants.length := by
    intro d member
    obtain ⟨index, isSelected, rfl⟩ := List.mem_map.mp member
    obtain ⟨segment, ofLayer, inSegment⟩ := List.mem_flatten.mp isSelected
    have bound := inRange.segments segment (inRange.mem_selected ofLayer) index inSegment
    rw [List.getD_eq_getElem _ _ bound]
    exact inRange.constants _ (List.getElem_mem bound)
  obtain ⟨terms, ran, size⟩ := accumulate_returns (ε := ε) Wires.zero coefficients
  refine ⟨terms, ran, ?_⟩
  rw [size, List.length_map, List.length_flatten]

variable {prev : Wires} {terms : List (Term E)}

theorem length_accumulate (ran : (accumulate constants prev deltas : Exec ε _) = .ok terms) :
    terms.length = deltas.length := by
  induction deltas generalizing prev terms with
  | nil =>
    obtain rfl := Except.ok.inj ran
    rfl
  | cons d deltas ih =>
    obtain ⟨_, _, ran⟩ := bind_eq_ok.mp ran
    obtain ⟨_, later, ran⟩ := bind_eq_ok.mp ran
    obtain rfl := Except.ok.inj ran
    rw [List.length_cons, ih later, List.length_cons]

/-- The number of terms of the selected segments. -/
def Layer.size (layer : Layer) : Nat := (layer.selected.map List.length).sum

variable {segments : List (List UInt32)}

theorem Layer.map_segmentAt (layer : Layer) {tokens : List UInt32}
    (found : List.Forall₂ (fun tok segment =>
      (getAt layer.deltaSegments tok.toNat : Exec ε _) = .ok segment) tokens segments) :
    tokens.map layer.segmentAt = segments := by
  induction found with
  | nil => rfl
  | cons head _ ih =>
    rw [List.map_cons, ih, Layer.segmentAt, List.getD_eq_getElem?_getD, getAt_eq_ok.mp head,
      Option.getD_some]

theorem Layer.numTerms_of_terms (expands : (layer.terms constants : Exec ε _) = .ok terms) :
    (layer.numTerms : Exec ε Nat) = .ok terms.length ∧ layer.size = terms.length := by
  obtain ⟨deltas, sequence, summed⟩ := bind_eq_ok.mp expands
  obtain ⟨indices, flat, looked⟩ := bind_eq_ok.mp sequence
  obtain ⟨segments, chosen, flattened⟩ := bind_eq_ok.mp flat
  obtain rfl := Except.ok.inj flattened
  have selected : layer.selected = segments := layer.map_segmentAt (mapM_eq_ok chosen)
  have count : terms.length = (segments.map List.length).sum := by
    rw [length_accumulate summed, ← (mapM_eq_ok looked).length_eq, List.length_flatten]
  refine ⟨?_, ?_⟩
  · rw [Layer.numTerms, chosen, ok_bind, pure_eq_ok, count]
  · rw [Layer.size, selected, count]

/-! ### Running a step on every term -/

variable {σ : Type}

variable {table : List TermDelta} {callback : σ → Term E → Exec ε σ} {indices : List UInt32}

theorem foldlM_deltas {s : σ} {result : Wires × σ}
    (ran : indices.foldlM (fun (state : Wires × σ) dIdx => do
      let d ← getAt table dIdx.toNat
      let next := state.1.step d
      let k ← getAt constants d.kIndex.toNat
      let s ← callback state.2 ⟨k, next.g, next.h0, next.h1⟩
      pure (next, s)) (prev, s) = .ok result) :
    ∃ deltas terms, (indices.mapM fun d => getAt table d.toNat : Exec ε _) = .ok deltas ∧
      (accumulate constants prev deltas : Exec ε _) = .ok terms ∧
      terms.foldlM callback s = .ok result.2 := by
  induction indices generalizing prev s with
  | nil =>
    obtain rfl := Except.ok.inj ran
    exact ⟨[], [], rfl, rfl, rfl⟩
  | cons dIdx indices ih =>
    rw [List.foldlM_cons] at ran
    obtain ⟨state, stepped, later⟩ := bind_eq_ok.mp ran
    obtain ⟨d, found, stepped⟩ := bind_eq_ok.mp stepped
    obtain ⟨k, coefficient, stepped⟩ := bind_eq_ok.mp stepped
    obtain ⟨s', called, stepped⟩ := bind_eq_ok.mp stepped
    obtain rfl := Except.ok.inj stepped
    obtain ⟨deltas, terms, looked, summed, folded⟩ := ih later
    refine ⟨d :: deltas, ⟨k, (prev.step d).g, (prev.step d).h0, (prev.step d).h1⟩ :: terms,
      ?_, ?_, ?_⟩
    · rw [List.mapM_cons, found, ok_bind, looked, ok_bind, pure_eq_ok]
    · rw [accumulate, coefficient, ok_bind, summed, ok_bind, pure_eq_ok]
    · rw [List.foldlM_cons, called, ok_bind, folded]

/-- **A loop over the terms of a layer that returns** has run the step on the terms it expands
to. -/
theorem Layer.terms_of_tryForEachTerm {s t : σ}
    (ran : layer.tryForEachTerm constants callback s = .ok t) :
    ∃ terms, (layer.terms constants : Exec ε _) = .ok terms ∧
      terms.foldlM callback s = .ok t := by
  obtain ⟨⟨last, s'⟩, loop, ran⟩ := bind_eq_ok.mp ran
  obtain rfl := Except.ok.inj ran
  -- The nested loops are one loop over the flattened segments.
  have flat : ∃ segments, (layer.deltaTokens.mapM fun tok => getAt layer.deltaSegments tok.toNat :
      Exec ε _) = .ok segments ∧ segments.flatten.foldlM (fun (state : Wires × σ) dIdx => do
        let d ← getAt layer.deltas dIdx.toNat
        let next := state.1.step d
        let k ← getAt constants d.kIndex.toNat
        let s ← callback state.2 ⟨k, next.g, next.h0, next.h1⟩
        pure (next, s)) (Wires.zero, s) = .ok (last, s') := by
    generalize (Wires.zero, s) = start at loop
    generalize layer.deltaTokens = tokens at loop
    induction tokens generalizing start with
    | nil => exact ⟨[], rfl, loop⟩
    | cons tok tokens ih =>
      rw [List.foldlM_cons] at loop
      obtain ⟨middle, first, later⟩ := bind_eq_ok.mp loop
      obtain ⟨segment, found, inner⟩ := bind_eq_ok.mp first
      obtain ⟨segments, looked, rest⟩ := ih middle later
      refine ⟨segment :: segments, ?_, ?_⟩
      · rw [List.mapM_cons, found, ok_bind, looked, ok_bind, pure_eq_ok]
      · rw [List.flatten_cons, List.foldlM_append, inner, ok_bind, rest]
  obtain ⟨segments, looked, folded⟩ := flat
  obtain ⟨deltas, terms, found, summed, called⟩ := foldlM_deltas folded
  refine ⟨terms, ?_, called⟩
  rw [Layer.terms, Layer.deltaSequence, Layer.deltaIndices, looked, ok_bind, pure_eq_ok, ok_bind,
    found, ok_bind, summed]

theorem foldlM_indices (s : σ)
    (looked : (indices.mapM fun d => getAt table d.toNat : Exec ε _) = .ok deltas)
    (summed : (accumulate constants prev deltas : Exec ε _) = .ok terms) :
    (Prod.snd <$> indices.foldlM (fun (state : Wires × σ) dIdx => do
      let d ← getAt table dIdx.toNat
      let next := state.1.step d
      let k ← getAt constants d.kIndex.toNat
      let s ← callback state.2 ⟨k, next.g, next.h0, next.h1⟩
      pure (next, s)) (prev, s)) = terms.foldlM callback s := by
  induction indices generalizing deltas terms prev s with
  | nil =>
    obtain rfl := Except.ok.inj looked
    obtain rfl := Except.ok.inj summed
    rfl
  | cons dIdx indices ih =>
    rw [List.mapM_cons] at looked
    obtain ⟨d, found, looked⟩ := bind_eq_ok.mp looked
    obtain ⟨later, rest, looked⟩ := bind_eq_ok.mp looked
    obtain rfl := Except.ok.inj looked
    obtain ⟨k, coefficient, summed⟩ := bind_eq_ok.mp summed
    obtain ⟨others, after, summed⟩ := bind_eq_ok.mp summed
    obtain rfl := Except.ok.inj summed
    simp only [List.foldlM_cons, found, ok_bind, coefficient]
    cases callback s ⟨k, (prev.step d).g, (prev.step d).h0, (prev.step d).h1⟩ with
    | error fault => rfl
    | ok next => exact ih next rest after

theorem foldlM_tokens {step : σ → UInt32 → Exec ε σ} {tokens : List UInt32} (s : σ)
    (chosen : (tokens.mapM fun tok => getAt layer.deltaSegments tok.toNat : Exec ε _) =
      .ok segments) :
    tokens.foldlM (fun state tok => do
      let segment ← getAt layer.deltaSegments tok.toNat
      segment.foldlM step state) s = segments.flatten.foldlM step s := by
  induction tokens generalizing segments s with
  | nil =>
    obtain rfl := Except.ok.inj chosen
    rfl
  | cons tok tokens ih =>
    rw [List.mapM_cons] at chosen
    obtain ⟨segment, found, chosen⟩ := bind_eq_ok.mp chosen
    obtain ⟨later, rest, chosen⟩ := bind_eq_ok.mp chosen
    obtain rfl := Except.ok.inj chosen
    rw [List.foldlM_cons, found, ok_bind, List.flatten_cons, List.foldlM_append]
    cases segment.foldlM step s with
    | error fault => rfl
    | ok next => exact ih next rest

/-- **A loop over the terms of a layer that expands** runs the step on its terms. -/
theorem Layer.tryForEachTerm_eq (s : σ) (expands : (layer.terms constants : Exec ε _) = .ok terms) :
    layer.tryForEachTerm constants callback s = terms.foldlM callback s := by
  obtain ⟨deltas, sequence, summed⟩ := bind_eq_ok.mp expands
  obtain ⟨indices, flat, looked⟩ := bind_eq_ok.mp sequence
  obtain ⟨segments, chosen, flattened⟩ := bind_eq_ok.mp flat
  obtain rfl := Except.ok.inj flattened
  rw [← foldlM_indices s looked summed, Layer.tryForEachTerm, foldlM_tokens _ chosen]
  cases List.foldlM (m := Exec ε) _ (Wires.zero, s) segments.flatten <;> rfl

/-! ### Circuits -/

/-- A circuit without its identifier. -/
structure RawCircuit (E : Type) where
  ninput : Nat
  npublicInput : Nat
  noutput : Nat
  logv : Nat
  subfieldBoundary : Nat
  constants : List E
  layers : List Layer
  deriving DecidableEq, Repr

/-- A circuit with its identifier. -/
structure Circuit (E : Type) where
  raw : RawCircuit E
  id : Vector UInt8 32
  deriving DecidableEq, Repr

/-- The fields a serialized circuit can be over. -/
inductive FieldID where
  | none | p256 | p384 | p521 | gf2_128 | gf2_16 | fp128 | fp64 | goldi | fp64_2 | secp
  deriving DecidableEq, Repr

/-- The code of a field in a serialized circuit. -/
def FieldID.code : FieldID → Nat
  | .none => 0 | .p256 => 1 | .p384 => 2 | .p521 => 3 | .gf2_128 => 4 | .gf2_16 => 5
  | .fp128 => 6 | .fp64 => 7 | .goldi => 8 | .fp64_2 => 9 | .secp => 10

/-- Maximum number of rounds of a layer. -/
def maxLogw : Nat := 40

/-- Whether a logarithm of a layer's width is supported. -/
def SaneLogw (logw : Nat) : Prop := logw ≤ maxLogw ∧ logw < 64

instance (logw : Nat) : Decidable (SaneLogw logw) :=
  inferInstanceAs (Decidable (logw ≤ maxLogw ∧ logw < 64))

/-- The ceiling of the base-2 logarithm. -/
def ceilLog2 (n : Nat) : Exec ε Nat :=
  match n with
  | 0 => abort "log2 of zero is undefined"
  | 1 => pure 0
  | n + 2 => pure ((n + 1).log2 + 1)

/-! ### The identifier -/

section Id

variable (sha256 : Bytes → Vector UInt8 32) (f : SerializableField E)

/-- A count in the hashed header, as eight bytes. -/
def update8 (val : Nat) : Bytes := leBytes 8 val

/-- The hashed form of a term. -/
def termBytes (term : Term E) : Bytes :=
  update8 term.g.toNat ++ update8 term.h0.toNat ++ update8 term.h1.toNat ++ f.toBytes term.k

/-- The hashed form of a layer. -/
def layerBytes (constants : List E) (layer : Layer) : Exec ε Bytes := do
  let count ← layer.numTerms
  let terms ← layer.terms constants
  pure (update8 layer.nw ++ update8 layer.logw ++ update8 count ++ terms.flatMap (termBytes f))

/-- The hashed header. -/
def headerBytes (raw : RawCircuit E) : Bytes :=
  (if f.isBinary then update8 2 ++ update8 (f.serializedSizeBytes * 8)
    else update8 1 ++ f.serializedMone) ++
  update8 raw.noutput ++ update8 raw.logv ++ update8 1 ++ update8 0 ++
  update8 raw.layers.length ++ update8 raw.ninput ++ update8 raw.npublicInput ++
  update8 raw.subfieldBoundary

/-- The identifier of a circuit: the hash of its header and of its expanded layers. -/
def computeId (raw : RawCircuit E) : Exec ε (Vector UInt8 32) := do
  let layers ← raw.layers.mapM (layerBytes f raw.constants)
  pure (sha256 (headerBytes f raw ++ layers.flatten))

end Id

/-- Two layers with the same dimensions and the same terms. -/
structure SameLayer (constants constants' : List E) (layer layer' : Layer) : Prop where
  nw : layer'.nw = layer.nw
  logw : layer'.logw = layer.logw
  terms : ∃ terms : List (Term E), (layer.terms constants : Exec String _) = .ok terms ∧
    (layer'.terms constants' : Exec String _) = .ok terms ∧
    (layer.numTerms : Exec String Nat) = .ok terms.length ∧
    (layer'.numTerms : Exec String Nat) = .ok terms.length

/-- Two circuits with the same header and the same terms in every layer. -/
structure SameCircuit (raw raw' : RawCircuit E) : Prop where
  ninput : raw'.ninput = raw.ninput
  npublicInput : raw'.npublicInput = raw.npublicInput
  noutput : raw'.noutput = raw.noutput
  logv : raw'.logv = raw.logv
  subfieldBoundary : raw'.subfieldBoundary = raw.subfieldBoundary
  layers : List.Forall₂ (SameLayer raw.constants raw'.constants) raw.layers raw'.layers

/-- **The identifier depends on the header and the terms only.** -/
theorem computeId_congr {sha256 : Bytes → Vector UInt8 32} {f : SerializableField E}
    {raw raw' : RawCircuit E} (same : SameCircuit raw raw') :
    (computeId sha256 f raw' : Exec String _) = computeId sha256 f raw := by
  have header : headerBytes f raw' = headerBytes f raw := by
    unfold headerBytes
    rw [same.noutput, same.logv, same.ninput, same.npublicInput, same.subfieldBoundary,
      same.layers.length_eq]
  have layers : (raw'.layers.mapM (layerBytes f raw'.constants) : Exec String (List Bytes)) =
      raw.layers.mapM (layerBytes f raw.constants) := by
    have pairs := same.layers
    generalize raw.layers = left at pairs
    generalize raw'.layers = right at pairs
    induction pairs with
    | nil => rfl
    | @cons layer layer' _ _ head _ ih =>
      obtain ⟨terms, first, second, count, count'⟩ := head.terms
      have bytes : (layerBytes f raw'.constants layer' : Exec String Bytes) =
          layerBytes f raw.constants layer := by
        unfold layerBytes
        rw [count, count', ok_bind, ok_bind, first, second, head.nw, head.logw]
      rw [List.mapM_cons, List.mapM_cons, bytes, ih]
  rw [computeId, computeId, layers, header]

end Longfellow
