/-
**The schedulers of the compiler** (`compile/compiler/src/quad.rs`,
`compile/compiler/src/v1/scheduler.rs`, `compile/compiler/src/v2/scheduler.rs`).

A quad circuit, a list of nodes, is cut into layers by depth, assertions inside become terms with
coefficient zero, the wires of a layer are numbered by the canonical order of their terms, and the
terms of each layer are encoded as differences. The two versions are copies of each other up to the
order of the terms of a layer, so `scheduleWith` takes that order as a parameter.
-/

import Longfellow.Compile.Eval
import Longfellow.Util.Morton

namespace Longfellow

/-- A node: an input, a sum of products of two nodes, or an assertion that a node is zero. -/
inductive WExpr (E : Type) where
  | unspecified
  | input (positionInInputArray : Nat)
  | sum (terms : List (E × Nat × Nat))
  | assert0 (w : Nat)
  deriving DecidableEq, Repr

/-- The nodes, each behind the nodes it refers to. -/
structure QuadCircuit (E : Type) where
  nodes : List (WExpr E)
  deriving DecidableEq, Repr

namespace WExpr

variable {E : Type}

def isAssert0 : WExpr E → Bool
  | .assert0 _ => true
  | _ => false

def isInput : WExpr E → Bool
  | .input _ => true
  | _ => false

/-- The products of a sum. -/
def terms? : WExpr E → Option (List (E × Nat × Nat))
  | .sum terms => some terms
  | _ => none

/-- The number of terms a node is scheduled to: an assertion may become one. -/
def nterms : WExpr E → Nat
  | .sum terms => terms.length
  | .assert0 _ => 1
  | _ => 0

end WExpr

/-- The number of terms of a circuit. -/
def QuadCircuit.nterms {E : Type} (c : QuadCircuit E) : Nat := (c.nodes.map WExpr.nterms).sum

end Longfellow

namespace Longfellow.Compile

open Lib

variable {ε E τ : Type} [CommRing E] [DecidableEq E] (f : SerializableField E)

/-! ### Checks and depths -/

/-- Mark the operands of a term. -/
def markTerm (needed : List Bool) (term : E × Nat × Nat) : Exec ε (List Bool) := do
  let needed ← setAt needed term.2.1 true
  setAt needed term.2.2 true

/-- Check one node against the nodes behind it, and mark its operands. -/
def markNode (needed : List Bool) (node : WExpr E × Nat) : Exec ε (List Bool) :=
  match node.1 with
  | .unspecified => abort "Unspecified in circuit"
  | .input _ => do
    let here ← getAt needed node.2
    ensure (here = true ∨ node.2 = 0) "found input that is not needed"
    pure needed
  | .assert0 w => do
    let needed ← setAt needed node.2 true
    setAt needed w true
  | .sum terms => do
    let here ← getAt needed node.2
    ensure (here = true) "assertion failed: needed[i]"
    terms.foldlM markTerm needed

/-- Every node is needed by an assertion. -/
def assertAllNeeded (nodes : List (WExpr E)) : Exec ε Unit := do
  let _ ← nodes.zipIdx.reverse.foldlM markNode (List.replicate nodes.length false)
  pure ()

/-- The depth of a node from the depths of its operands. -/
def depthOfNode (depth : List Nat) (node : WExpr E) : Exec ε Nat :=
  match node with
  | .unspecified => abort "Unspecified in circuit"
  | .input _ => pure 0
  | .assert0 w => getAt depth w
  | .sum terms => do
    ensure (terms ≠ []) "empty quad in circuit!"
    let depths ← terms.mapM fun (_, x, y) => do
      let dx ← getAt depth x
      let dy ← getAt depth y
      pure (1 + max dx dy)
    pure (depths.foldl max 0)

/-- The operands of a node lie in the layer below. -/
def assertLayering (depth : List Nat) (node : WExpr E × Nat) : Exec ε Unit := do
  let here ← getAt depth node.2
  match node.1 with
  | .unspecified => abort "Unspecified in circuit"
  | .input _ => ensure (here = 0) "assertion `left == right` failed"
  | .assert0 w => do
    let below ← getAt depth w
    ensure (here = below) "assertion `left == right` failed"
  | .sum terms => do
    ensure (terms ≠ []) "empty quad in circuit!"
    terms.forM fun (e, x, y) => do
      ensure (e ≠ 0) "assertion failed: !f.is_zero(e)"
      let dx ← getAt depth x
      ensure (here = dx + 1) "assertion `left == right` failed"
      let dy ← getAt depth y
      ensure (here = dy + 1) "assertion `left == right` failed"

/-- An assertion inside the circuit becomes a term with coefficient zero, one layer up; those of the
last layer become outputs. -/
def materialize (maxDepth : Nat) (node : WExpr E) (depth : Nat) : WExpr E × Nat :=
  match node with
  | .assert0 w => if depth < maxDepth then (.sum [(0, w, w)], depth + 1) else (.assert0 w, depth)
  | node => (node, depth)

/-- The nodes with their assertions materialized, their depths and the largest depth. -/
def computeNodeDepths (nodes : List (WExpr E)) : Exec ε (List (WExpr E) × List Nat × Nat) := do
  let depth ← nodes.zipIdx.foldlM (fun depth (node, i) => do
    let d ← depthOfNode depth node
    setAt depth i d) (List.replicate nodes.length 0)
  nodes.zipIdx.forM (assertLayering depth)
  let rawMaxDepth := depth.foldl max 0
  let maxDepth ← (if rawMaxDepth = 0 then do
      ensure (nodes.any WExpr.isAssert0 = true) "circuit with no depth makes no sense"
      pure 1
    else pure rawMaxDepth : Exec ε Nat)
  let materialized := List.zipWith (materialize maxDepth) nodes depth
  pure (materialized.map Prod.fst, materialized.map Prod.snd, maxDepth)

/-- The nodes of every depth, in order. -/
def nodesByDepth (depth : List Nat) (maxDepth : Nat) : Exec ε (List (List Nat)) :=
  depth.zipIdx.foldlM (fun buckets (d, i) => do
    let bucket ← getAt buckets d
    setAt buckets d (bucket ++ [i])) (List.replicate (maxDepth + 1) [])

/-! ### Wire numbers -/

/-- The number of a wire before it has one. -/
def invalidWireId : Nat := 2 ^ 64 - 1

/-- A term with its operands renamed, the smaller one first. -/
structure RenamedTerm (E : Type) where
  k : E
  rlop0 : Nat
  rlop1 : Nat
  deriving DecidableEq, Repr

/-- The lexicographic order of bytes. -/
def compareBytes (a b : Bytes) : Ordering := List.compareLex compare a b

def RenamedTerm.compare (a b : RenamedTerm E) : Ordering :=
  (Ord.compare a.rlop1 b.rlop1).then ((Ord.compare a.rlop0 b.rlop0).then
    (compareBytes (f.toBytes a.k) (f.toBytes b.k)))

/-- A sum with its terms renamed. -/
structure RenamedNode (E : Type) where
  originalNodeIndex : Nat
  rlterms : List (RenamedTerm E)
  deriving DecidableEq, Repr

/-- Compare lists of terms from their ends; a longer list comes first. -/
def compareTerms : List (RenamedTerm E) → List (RenamedTerm E) → Ordering
  | a :: as, b :: bs => (RenamedTerm.compare f a b).then (compareTerms as bs)
  | [], [] => .eq
  | _ :: _, [] => .lt
  | [], _ :: _ => .gt

def RenamedNode.compare (a b : RenamedNode E) : Ordering :=
  compareTerms f a.rlterms.reverse b.rlterms.reverse

/-- The terms of a node, renamed and sorted. -/
def renameTerms (ids : List Nat) (terms : List (E × Nat × Nat)) : Exec ε (List (RenamedTerm E)) := do
  let renamed ← terms.mapM fun (e, w0, w1) => do
    let rlop0 ← getAt ids w0
    let rlop1 ← getAt ids w1
    pure (⟨e, min rlop0 rlop1, max rlop0 rlop1⟩ : RenamedTerm E)
  let sorted := renamed.mergeSort fun a b => (RenamedTerm.compare f a b).isLE
  ensure (sorted.IsChain fun a b => RenamedTerm.compare f a b ≠ .eq)
    "Scheduler: duplicate term detected (no coalescing allowed)"
  pure sorted

/-- The sums among some nodes. -/
def layerNodes (nodes : List (WExpr E)) (indices : List Nat) :
    Exec ε (List (Nat × List (E × Nat × Nat))) := do
  let found ← indices.mapM fun i => do
    let node ← getAt nodes i
    pure (node.terms?.map fun terms => (i, terms))
  pure found.reduceOption

/-- Number the sums of one depth by the order of their terms. The comparison of two nodes panics on
a tie, and a sort compares what it leaves side by side. -/
def assignLayer (nodes : List (WExpr E)) (ids : List Nat) (indices : List Nat) :
    Exec ε (List Nat) := do
  let layer ← layerNodes nodes indices
  let renamed ← layer.mapM fun (i, terms) => do
    let rlterms ← renameTerms f ids terms
    pure (⟨i, rlterms⟩ : RenamedNode E)
  let sorted := renamed.mergeSort fun a b => (RenamedNode.compare f a b).isLE
  ensure (sorted.IsChain fun a b => RenamedNode.compare f a b ≠ .eq)
    "Compare tie-break occurred: duplicate node detected"
  sorted.zipIdx.foldlM (fun ids (node, wid) => setAt ids node.originalNodeIndex wid) ids

/-- The wire number of every node: inputs by their position, then depth by depth. -/
def assignWireIds (nodes : List (WExpr E)) (buckets : List (List Nat)) : Exec ε (List Nat) := do
  let ids ← (buckets.headD []).foldlM (fun ids i => do
    let node ← getAt nodes i
    match node with
    | .input position => setAt ids i position
    | _ => pure ids) (List.replicate nodes.length invalidWireId)
  buckets.tail.foldlM (assignLayer f nodes) ids

/-! ### Terms -/

/-- The smaller operand first. -/
def canonicalTerm (t : Term E) : Term E := if t.h1 < t.h0 then ⟨t.k, t.g, t.h1, t.h0⟩ else t

/-- The Morton order of the operands, then the output, then the bytes of the coefficient. -/
def compareTerm (t s : Term E) : Ordering :=
  (Morton.cmp t.h0.toNat t.h1.toNat s.h0.toNat s.h1.toNat).then ((compare t.g s.g).then
    (compareBytes (f.toBytes t.k) (f.toBytes s.k)))

/-- The terms of one layer and the number of its wires. -/
def collectLayer (nodes : List (WExpr E)) (ids : List Nat) (indices : List Nat) :
    Exec ε (List (Term E) × Nat) := do
  let layer ← layerNodes nodes indices
  let keyed ← layer.mapM fun (i, terms) => do
    let g ← getAt ids i
    pure (g, terms)
  let sorted := keyed.mergeSort fun a b => a.1 ≤ b.1
  let terms ← sorted.mapM fun (g, terms) => terms.mapM fun (e, w0, w1) => do
    let h0 ← getAt ids w0
    let h1 ← getAt ids w1
    pure (canonicalTerm ⟨e, UInt32.ofNat g, UInt32.ofNat h0, UInt32.ofNat h1⟩)
  pure (terms.flatten, layer.length)

/-- The terms and the number of wires of every layer, from the inputs up. -/
def collectQuads (nodes : List (WExpr E)) (buckets : List (List Nat)) (ids : List Nat) :
    Exec ε (List (List (Term E) × Nat)) :=
  buckets.tail.mapM (collectLayer nodes ids)

/-- Mark the operands of a term, and its output if it is an assertion. -/
def visitTerm (state : List Bool × List Bool) (term : Term E) :
    Exec ε (List Bool × List Bool) := do
  let visited ← setAt state.1 term.h0.toNat true
  let visited ← setAt visited term.h1.toNat true
  let arr ← (if term.k = 0 then setAt state.2 term.g.toNat true else pure state.2 :
    Exec ε (List Bool))
  pure (visited, arr)

/-- Every wire of a layer is used by the next one, or carries an assertion. -/
def checkLayer (l : Nat) (v : List Bool) (layer : List (Term E) × Nat) : Exec ε (List Bool) := do
  let (visited, assertions) ← layer.1.foldlM visitTerm (v, List.replicate layer.2 false)
  visited.zipIdx.forM fun (val, i) =>
    ensure (val = true ∨ (l = 0 ∧ i = 0)) s!"unvisited wire {i} in layer {l}"
  pure assertions

/-- The layers are connected. -/
def checkConnectivity (ninput : Nat) (layers : List (List (Term E) × Nat)) : Exec ε Unit := do
  ensure (0 < ninput) "assertion failed: ninput > 0"
  let _ ← layers.zipIdx.foldlM (fun v (layer, l) => checkLayer l v layer)
    (List.replicate ninput false)
  pure ()

/-- Every input position is used by one input. -/
def validateAndCountInputs (nodes : List (WExpr E)) : Exec ε Nat := do
  let positions := nodes.filterMap fun node => match node with
    | .input position => some position
    | _ => none
  ensure (positions.length = 1 + positions.foldl max 0) "some inputs are unused, cannot schedule"
  pure positions.length

/-! ### Debug symbols -/

/-- The symbol of an assertion, if its wire has a number. -/
def symbolOf (nodes : List (WExpr E)) (wireIds depth : List Nat) (maxDepth : Nat)
    (quadAssert : Nat × AssertionId) : Exec ε (Option AssertionSymbol) := do
  match nodes[quadAssert.1]? with
  | none => pure none
  | some node =>
    let target := match node with
      | .assert0 w => w
      | _ => quadAssert.1
    match wireIds[target]? with
    | none => pure none
    | some wid =>
      if wid = invalidWireId then pure none
      else do
        let d ← getAt depth target
        ensure (d ≤ maxDepth) "assertion target is deeper than the circuit"
        pure (some ⟨⟨maxDepth - d, wid⟩, quadAssert.2⟩)

/-- The symbols of the assertions, by layer and wire. -/
def extractDebugSymbols (nodes : List (WExpr E)) (quadAsserts : List (Nat × AssertionId))
    (wireIds depth : List Nat) (maxDepth : Nat) (tracker : τ) :
    Exec ε (CircuitDebugSymbols τ) := do
  let symbols ← quadAsserts.mapM (symbolOf nodes wireIds depth maxDepth)
  let sorted := symbols.reduceOption.mergeSort fun a b =>
    (compareLex (compareOn (·.wire.layer)) (compareOn (·.wire.index)) a b).isLE
  pure ⟨sorted, tracker⟩

/-! ### Layers -/

/-- The coefficients that occur, each at its first occurrence by its bytes. -/
def addConstant (constants : List E) (term : Term E) : List E :=
  if constants.any fun k => f.toBytes k = f.toBytes term.k then constants
  else constants ++ [term.k]

def collectConstants (termsInLayer : List (List (Term E))) : List E :=
  termsInLayer.flatten.foldl (addConstant f) []

/-- The index of a coefficient, as it is stored. -/
def constantIndex (constants : List E) (k : E) : Exec ε UInt32 := do
  let i ← expect (constants.findIdx? fun c => f.toBytes c = f.toBytes k) "no entry found for key"
  pure (UInt32.ofNat i)

/-- The differences of the terms of a layer, each to the term before. -/
def termDeltas (constants : List E) : Wires → List (Term E) → Exec ε (List TermDelta)
  | _, [] => pure []
  | prev, term :: terms => do
    let kIndex ← constantIndex f constants term.k
    let rest ← termDeltas constants term.wires terms
    pure (⟨term.g - prev.g, term.h0 - prev.h0, term.h1 - prev.h1, kIndex⟩ :: rest)

/-- The exact table of deltas: an index for each delta, the table extended at a first occurrence. -/
def dedupExact (deltas : List TermDelta) (d : TermDelta) : UInt32 × List TermDelta :=
  match deltas.idxOf? d with
  | some i => (UInt32.ofNat i, deltas)
  | none => (UInt32.ofNat deltas.length, deltas ++ [d])

/-- The indices of a run of deltas. -/
def dedupRun : List TermDelta → List TermDelta → List UInt32 × List TermDelta
  | deltas, [] => ([], deltas)
  | deltas, d :: run =>
    let (index, deltas) := dedupExact deltas d
    let (indices, deltas) := dedupRun deltas run
    (index :: indices, deltas)

/-- The segments of several runs. -/
def dedupRuns : List TermDelta → List (List TermDelta) → List (List UInt32) × List TermDelta
  | deltas, [] => ([], deltas)
  | deltas, run :: runs =>
    let (segment, deltas) := dedupRun deltas run
    let (segments, deltas) := dedupRuns deltas runs
    (segment :: segments, deltas)

/-- A compressed layer from runs of deltas and tokens. -/
def newCompressed (nw logw : Nat) (runs : List (List TermDelta)) (tokens : List UInt32) : Layer :=
  let (deltaSegments, deltas) := dedupRuns [] runs
  ⟨nw, logw, deltas, deltaSegments, tokens⟩

/-- No term occurs twice in a row. -/
def assertDistinct (layerSorted : List (Term E)) : Exec ε Unit :=
  ensure (layerSorted.IsChain fun a b => compareTerm f a b ≠ .eq)
    "Scheduler: duplicate term detected in layer outputs (no coalescing allowed)"

/-- A layer of version 1: the deltas are collected in a table, and read back from it. -/
def buildLayerV1 (constants : List E) (layerSorted : List (Term E)) (layerNinput logw : Nat) :
    Exec ε Layer := do
  assertDistinct f layerSorted
  let run ← termDeltas f constants Wires.zero layerSorted
  let (deltaSegment, deltas) := dedupRun [] run
  let unrolledDeltas ← deltaSegment.mapM fun idx => getAt deltas idx.toNat
  pure (newCompressed layerNinput logw [unrolledDeltas] [0])

/-- A layer of version 2. -/
def buildLayerV2 (constants : List E) (layerSorted : List (Term E)) (layerNinput logw : Nat) :
    Exec ε Layer := do
  assertDistinct f layerSorted
  let run ← termDeltas f constants Wires.zero layerSorted
  pure (newCompressed layerNinput logw [run] [0])

/-- The layers of version 1: the terms of each in Morton order. -/
def orderedLayersV1 (constants : List E) : Nat → List (List (Term E) × Nat) → Exec ε (List Layer)
  | _, [] => pure []
  | nw, (terms, nwires) :: layers => do
    let sorted := terms.mergeSort fun a b => (compareTerm f a b).isLE
    let logw ← ceilLog2 nw
    let layer ← buildLayerV1 f constants sorted nw logw
    let rest ← orderedLayersV1 constants nwires layers
    pure (layer :: rest)

/-! ### The order of version 2 -/

/-- The shape of a term: a constant, a linear term, a square, or a product. -/
def kind (ones : List Bool) (term : Term E) : Exec ε Nat := do
  let one0 ← getAt ones term.h0.toNat
  let one1 ← getAt ones term.h1.toNat
  pure (match one0, one1 with
    | true, true => 0
    | true, false | false, true => 1
    | false, false => if term.h0 = term.h1 then 2 else 3)

/-- Add a term to what is known of its output. -/
def propagateTerm (knownInputs : List (Option E)) (knownOutputs : List (Option E))
    (t : Term E) : Exec ε (List (Option E)) := do
  let output ← getAt knownOutputs t.g.toNat
  match output with
  | none => pure knownOutputs
  | some value => do
    let a ← getAt knownInputs t.h0.toNat
    let b ← getAt knownInputs t.h1.toNat
    setAt knownOutputs t.g.toNat (match a, b with
      | some a, some b => if t.k = 0 then none else some (value + t.k * (a * b))
      | _, _ => none)

/-- The outputs that are constant whatever the inputs. -/
def propagateConstants (terms : List (Term E)) (knownInputs : List (Option E)) (noutput : Nat) :
    Exec ε (List (Option E)) :=
  terms.foldlM (propagateTerm knownInputs) (List.replicate noutput (some 0))

/-- By shape, then outputs and second operands downwards, first operands upwards, and the bytes of
the coefficients. -/
def compareShaped (a b : Nat × Term E) : Ordering :=
  (compare a.1 b.1).then ((compare b.2.g a.2.g).then ((compare b.2.h1 a.2.h1).then
    ((compare a.2.h0 b.2.h0).then (compareBytes (f.toBytes a.2.k) (f.toBytes b.2.k)))))

/-- The terms of a layer in the order of version 2, and the constants among its outputs. -/
def orderLayer (terms : List (Term E)) (knownInputs : List (Option E)) (noutput : Nat) :
    Exec ε (List (Term E) × List (Option E)) := do
  let knownOutputs ← propagateConstants terms knownInputs noutput
  let ones := knownInputs.map fun v => decide (v = some 1)
  let shaped ← terms.mapM fun term => do
    let shape ← kind ones term
    pure (shape, term)
  let sorted := shaped.mergeSort fun a b => (compareShaped f a b).isLE
  pure (sorted.map Prod.snd, knownOutputs)

/-- The layers of version 2. -/
def orderedLayersV2 (constants : List E) : List (Option E) → List (List (Term E) × Nat) →
    Exec ε (List Layer)
  | _, [] => pure []
  | knownInputs, (terms, nwires) :: layers => do
    let (sorted, knownOutputs) ← orderLayer f terms knownInputs nwires
    let logw ← ceilLog2 knownInputs.length
    let layer ← buildLayerV2 f constants sorted knownInputs.length logw
    let rest ← orderedLayersV2 constants knownOutputs layers
    pure (layer :: rest)

/-- The layers of version 2 from the inputs on: wire 0 is known to be one. -/
def orderedFromOne (constants : List E) (ninput : Nat) (layers : List (List (Term E) × Nat)) :
    Exec ε (List Layer) := do
  let knownInputs ← setAt (List.replicate ninput (none : Option E)) 0 (some 1)
  orderedLayersV2 f constants knownInputs layers

/-! ### The schedulers -/

/-- The sizes of a circuit. -/
structure CircuitGeometry where
  ninput : Nat
  npublicInput : Nat
  noutput : Nat
  nwires : Nat
  nterms : Nat
  nlayers : Nat
  nassertions : Nat
  deriving DecidableEq, Repr

/-- What the schedulers know of a circuit before they order its layers. -/
structure Prepared (E τ : Type) where
  ninput : Nat
  nassertions : Nat
  layers : List (List (Term E) × Nat)
  symbols : CircuitDebugSymbols τ

/-- Check a quad circuit, number its wires and collect its terms. -/
def prepare (c : QuadCircuit E) (quadAsserts : List (Nat × AssertionId))
    (npublicInput subfieldBoundary : Nat) (tracker : τ) : Exec ε (Prepared E τ) := do
  let nassertions := c.nodes.countP WExpr.isAssert0
  ensure (quadAsserts.length = nassertions)
    "debug assertion records do not cover all circuit assertions"
  assertAllNeeded c.nodes
  let (nodes, depth, maxDepth) ← computeNodeDepths c.nodes
  let buckets ← nodesByDepth depth maxDepth
  let wireIds ← assignWireIds f nodes buckets
  let symbols ← extractDebugSymbols nodes quadAsserts wireIds depth maxDepth tracker
  ensure (symbols.symbols.length = nassertions) "debug symbols do not cover all circuit assertions"
  let layers ← collectQuads nodes buckets wireIds
  let ninput ← validateAndCountInputs nodes
  ensure (1 ≤ npublicInput) "npublic_input must include the reserved constant One"
  ensure (npublicInput ≤ ninput) s!"npublic_input ({npublicInput}) exceeds ninput ({ninput})"
  ensure (subfieldBoundary ≤ ninput)
    s!"subfield_boundary ({subfieldBoundary}) exceeds ninput ({ninput})"
  checkConnectivity ninput layers
  pure ⟨ninput, nassertions, layers, symbols⟩

variable (sha256 : Bytes → Vector UInt8 32)

/-- Schedule a quad circuit with a given order of the terms of its layers. -/
def scheduleWith (orderedLayers : List E → Nat → List (List (Term E) × Nat) → Exec ε (List Layer))
    (c : QuadCircuit E) (quadAsserts : List (Nat × AssertionId))
    (npublicInput subfieldBoundary : Nat) (tracker : τ) :
    Exec ε (Circuit E × CircuitGeometry × CircuitDebugSymbols τ) := do
  let prepared ← prepare f c quadAsserts npublicInput subfieldBoundary tracker
  let ninput := prepared.ninput
  let last ← expect prepared.layers.getLast? "index out of bounds"
  let noutput := last.2
  let constants := collectConstants f (prepared.layers.map Prod.fst)
  let cLayers ← orderedLayers constants ninput prepared.layers
  let sizes ← cLayers.mapM fun layer => layer.numTerms
  let info : CircuitGeometry := {
    ninput, npublicInput, noutput, nlayers := cLayers.length
    nwires := (prepared.layers.map Prod.snd).sum, nterms := sizes.sum
    nassertions := prepared.nassertions }
  let logv ← ceilLog2 noutput
  let raw : RawCircuit E := {
    ninput, npublicInput, noutput, logv, subfieldBoundary, constants, layers := cLayers.reverse }
  let id ← computeId sha256 f raw
  pure (⟨raw, id⟩, info, prepared.symbols)

/-- The scheduler of version 1. -/
def V1.schedule (c : QuadCircuit E) (quadAsserts : List (Nat × AssertionId))
    (npublicInput subfieldBoundary : Nat) (tracker : τ) :
    Exec ε (Circuit E × CircuitGeometry × CircuitDebugSymbols τ) :=
  scheduleWith f sha256 (orderedLayersV1 f) c quadAsserts npublicInput subfieldBoundary tracker

/-- The scheduler of version 2. -/
def V2.schedule (c : QuadCircuit E) (quadAsserts : List (Nat × AssertionId))
    (npublicInput subfieldBoundary : Nat) (tracker : τ) :
    Exec ε (Circuit E × CircuitGeometry × CircuitDebugSymbols τ) :=
  scheduleWith f sha256 (orderedFromOne f) c quadAsserts npublicInput subfieldBoundary tracker

end Longfellow.Compile
