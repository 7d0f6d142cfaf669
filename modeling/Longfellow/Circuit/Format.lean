/-
**What the two circuit formats share** (`core/proto/src/reader/mod.rs`, `core/proto/src/writer/`).

Both formats write the same header, then the constants, the layers and the identifier, with
numbers in an encoding of their own. The header, the checks of the reader and the tail of a
circuit are stated once over that encoding.

* `roundTrip_header`, `reads_constants`, `reads_finish` — each part is read back.
-/

import Longfellow.Circuit.Basic
import Longfellow.Lib.RoundTrip

namespace Longfellow

open Lib

variable {ε E : Type}

/-! ### Limits of the readers -/

def maxWires : Nat := 5000000
def maxTermsPerLayer : Nat := 20000000
def maxTotalTerms : Nat := 20000000
def maxDeltas : Nat := 20000000
def maxConstants : Nat := 5000000
def maxLayers : Nat := 10000
def maxLayerInputs : Nat := 5000000

/-- A reader of circuits over a field. -/
structure CircuitReader (E : Type) where
  f : SerializableField E
  fieldId : FieldID
  maxTotalTerms : Nat

/-- A reader with the default budget of terms. -/
def CircuitReader.new (f : SerializableField E) (fieldId : FieldID) : CircuitReader E :=
  ⟨f, fieldId, Longfellow.maxTotalTerms⟩

/-- A sum of sizes that stays at the largest size instead of overflowing. -/
def saturatingAdd (a b : Nat) : Nat := min (a + b) (2 ^ 64 - 1)

/-- The text of an error of `read_exact` at the end of the input. -/
def fillError : String := "failed to fill whole buffer"

/-! ### The header -/

/-- The counts at the start of a circuit. -/
structure Header where
  fid : Nat
  nv : Nat
  logv : Nat
  npubIn : Nat
  subfieldBoundary : Nat
  ninputs : Nat
  nl : Nat
  deriving DecidableEq, Repr

/-- The numbers of a header, in the order both writers write them. -/
def headerNumbers (fieldId : FieldID) (raw : RawCircuit E) : List Nat :=
  [fieldId.code, raw.noutput, 1, raw.npublicInput, raw.subfieldBoundary, raw.ninput,
    raw.layers.length]

section

variable (readNum : Reader String Nat)

/-- Read the counts at the start of a circuit. -/
def readHeader : Reader String Header := do
  let fid ← readNum
  let nv ← readNum
  demand (nv ≤ maxWires) s!"Excessive noutput count: {nv} (max {maxWires})"
  let logv ← liftM (ceilLog2 nv : Exec String Nat)
  demand (SaneLogw logv) s!"Circuit logv {logv} exceeds MAX_LOGW {maxLogw} or usize bit width"
  let nc ← readNum
  demand (nc = 1) s!"Unsupported ncopies: expected 1, got {nc}"
  let npubIn ← readNum
  demand (npubIn ≤ maxWires) s!"Excessive npublic_input count: {npubIn} (max {maxWires})"
  let subfieldBoundary ← readNum
  demand (subfieldBoundary ≤ maxWires)
    s!"Excessive subfield_boundary: {subfieldBoundary} (max {maxWires})"
  let ninputs ← readNum
  demand (ninputs ≤ maxWires) s!"Excessive ninput count: {ninputs} (max {maxWires})"
  let nl ← readNum
  demand (nl ≤ maxLayers) s!"Excessive layer count: {nl} (max {maxLayers})"
  pure ⟨fid, nv, logv, npubIn, subfieldBoundary, ninputs, nl⟩

/-- Read the number of constants. -/
def readNumConst : Reader String Nat := do
  let numconst ← readNum
  demand (numconst ≤ maxConstants) s!"Excessive constants count: {numconst} (max {maxConstants})"
  pure numconst

/-- Read the dimensions of a layer. -/
def readDimensions : Reader String (Nat × Nat) := do
  let logw ← readNum
  demand (SaneLogw logw) s!"Layer logw {logw} exceeds MAX_LOGW {maxLogw} or usize bit width"
  let nw ← readNum
  demand (nw ≤ maxLayerInputs) s!"Excessive nw count: {nw} (max {maxLayerInputs})"
  pure (logw, nw)

end

/-- Check that a circuit is over the field of the reader. -/
def checkFieldId (reader : CircuitReader E) (fid : Nat) : Reader String Unit :=
  demand (fid = reader.fieldId.code)
    s!"Field ID mismatch: expected {reader.fieldId.code}, got {fid}"

/-! ### Constants -/

/-- Read a constant. -/
def readConstant (f : SerializableField E) : Reader String E := do
  let chunk ← takeBytes f.serializedSizeBytes ("Failed to read constant: " ++ fillError)
  match f.bytesToElement chunk with
  | .ok vv => pure vv
  | .error e => liftM (raise ("Field deserialization error: " ++ e.quote) : Exec String E)

/-! ### Layers -/

/-- Add the terms of a layer to the total, within the budget of the reader. -/
def addTerms (reader : CircuitReader E) (totalTerms nterms : Nat) : Exec String Nat := do
  let totalTerms := saturatingAdd totalTerms nterms
  check (totalTerms ≤ reader.maxTotalTerms)
    s!"Total terms across layers {totalTerms} exceeds MAX_TOTAL_TERMS {reader.maxTotalTerms}"
  pure totalTerms

/-- Read `count` layers, each from the total of terms so far. -/
def readLayers (readLayer : Nat → Reader String (Layer × Nat)) : Nat → Nat →
    Reader String (List Layer)
  | 0, _ => pure []
  | count + 1, totalTerms => do
    let (layer, totalTerms) ← readLayer totalTerms
    let layers ← readLayers readLayer count totalTerms
    pure (layer :: layers)

/-! ### The end of a circuit -/

/-- The checks of a circuit as a whole. -/
def validateRawCircuit (raw : RawCircuit E) : Exec String Unit := do
  check (raw.noutput ≤ maxWires) s!"Excessive noutput: {raw.noutput}"
  check (raw.npublicInput ≤ maxWires) s!"Excessive npublic_input: {raw.npublicInput}"
  check (raw.ninput ≤ maxWires) s!"Excessive ninput: {raw.ninput}"
  check (raw.npublicInput ≤ raw.ninput)
    s!"Invalid public input count: npublic_input ({raw.npublicInput}) exceeds ninput ({raw.ninput})"
  check (raw.constants.length ≤ maxConstants) s!"Excessive constants: {raw.constants.length}"
  check (raw.layers.length ≤ maxLayers) s!"Excessive layers: {raw.layers.length}"

/-- Assemble a circuit from what was read of it. -/
def Header.toRaw (header : Header) (constants : List E) (layers : List Layer) : RawCircuit E :=
  { ninput := header.ninputs, npublicInput := header.npubIn, noutput := header.nv,
    logv := header.logv, subfieldBoundary := header.subfieldBoundary, constants := constants,
    layers := layers }

/-- Read the identifier, validate the circuit and, on request, its identifier. -/
def finishCircuit (sha256 : Bytes → Vector UInt8 32) (reader : CircuitReader E)
    (enforceCircuitId : Bool) (raw : RawCircuit E) : Reader String (Circuit E) := do
  let id ← takeVector 32 ("Failed to read ID: " ++ fillError)
  liftM (validateRawCircuit raw)
  if enforceCircuitId then do
    let computedId ← liftM (computeId sha256 reader.f raw : Exec String (Vector UInt8 32))
    demand (computedId = id) "Circuit ID verification failed"
    pure ⟨raw, id⟩
  else pure ⟨raw, id⟩

/-! ### Each part is read back -/

/-- Numbers below the limit are written and read back. -/
def NumberFormat (write : Nat → Exec ε Bytes) (readNum : Reader String Nat) (limit : Nat) : Prop :=
  ∀ n < limit, RoundTrip (write n) readNum n

/-- The limits of the readers on the header of a circuit. The logarithm of the number of outputs
is not written, the readers compute it. -/
structure HeaderLimits (raw : RawCircuit E) : Prop where
  noutput : raw.noutput ≤ maxWires
  logv : (ceilLog2 raw.noutput : Exec String Nat) = .ok raw.logv
  npublicInput : raw.npublicInput ≤ raw.ninput
  ninput : raw.ninput ≤ maxWires
  subfieldBoundary : raw.subfieldBoundary ≤ maxWires
  layers : raw.layers.length ≤ maxLayers

/-- The header of a circuit as the readers see it. -/
def headerOf (fieldId : FieldID) (raw : RawCircuit E) : Header :=
  ⟨fieldId.code, raw.noutput, raw.logv, raw.npublicInput, raw.subfieldBoundary, raw.ninput,
    raw.layers.length⟩

theorem FieldID.code_lt (fieldId : FieldID) : fieldId.code < 2 ^ 24 := by
  cases fieldId <;> decide

theorem saneLogw_of_ceilLog2 {n logw : Nat} (few : n ≤ maxWires)
    (computed : (ceilLog2 n : Exec ε Nat) = .ok logw) : SaneLogw logw := by
  match n with
  | 0 => cases computed
  | 1 =>
    obtain rfl := Except.ok.inj computed
    decide
  | n + 2 =>
    obtain rfl := Except.ok.inj computed
    have log : (n + 1).log2 < 40 := by
      apply (Nat.log2_lt (Nat.succ_ne_zero n)).mpr
      unfold maxWires at few
      omega
    exact ⟨log, by omega⟩

variable {write : Nat → Exec ε Bytes} {limit : Nat} {raw : RawCircuit E}

section

variable {readNum : Reader String Nat} (numbers : NumberFormat write readNum limit)
  (large : 2 ^ 24 ≤ limit)
include numbers large

theorem roundTrip_header (fieldId : FieldID) (limits : HeaderLimits raw) :
    RoundTrip (writeAll write (headerNumbers fieldId raw)) (readHeader readNum)
      (headerOf fieldId raw) := by
  have ninput := limits.ninput
  have npublicInput := limits.npublicInput.trans ninput
  have small : ∀ n ≤ maxWires, n < limit := fun n few => by
    unfold maxWires at few
    omega
  have fewLayers : raw.layers.length < limit := by
    have few := limits.layers
    unfold maxLayers at few
    omega
  refine (numbers _ (fieldId.code_lt.trans_le large)).append ?_
  refine (numbers _ (small _ limits.noutput)).append (RoundTrip.demanded limits.noutput ?_)
  refine RoundTrip.lifted limits.logv ?_
  refine RoundTrip.demanded (saneLogw_of_ceilLog2 limits.noutput limits.logv) ?_
  refine (numbers 1 (by omega)).append (RoundTrip.demanded rfl ?_)
  refine (numbers _ (small _ npublicInput)).append (RoundTrip.demanded npublicInput ?_)
  refine (numbers _ (small _ limits.subfieldBoundary)).append ?_
  refine RoundTrip.demanded limits.subfieldBoundary ?_
  refine (numbers _ (small _ ninput)).append (RoundTrip.demanded ninput ?_)
  refine (numbers _ fewLayers).append (RoundTrip.demanded limits.layers ?_)
  exact roundTrip_pure [] (Reads.pure _)

theorem roundTrip_numConst {n : Nat} (few : n ≤ maxConstants) :
    RoundTrip (write n) (readNumConst readNum) n := by
  have fits : n < limit := by
    unfold maxConstants at few
    omega
  exact (numbers n fits).checked (Reads.demanded few (Reads.pure n))

theorem roundTrip_dimensions {logw nw : Nat} (sane : SaneLogw logw) (few : nw ≤ maxLayerInputs) :
    RoundTrip (append (write logw) (write nw)) (readDimensions readNum) (logw, nw) := by
  have fits : nw < limit := by
    unfold maxLayerInputs at few
    omega
  have small : logw < limit := by
    have := sane.2
    omega
  refine (numbers _ small).append (RoundTrip.demanded sane ?_)
  exact (numbers nw fits).checked (Reads.demanded few (Reads.pure _))

end

variable {f : SerializableField E}

theorem reads_constant (lawful : LawfulField f) (k : E) :
    Reads (readConstant f) (f.toBytes k) k := by
  refine (reads_takeBytes (f.length_toBytes k)).checked ?_
  rw [lawful.parse_toBytes k]
  exact Reads.pure k

theorem reads_constants (lawful : LawfulField f) (constants : List E) :
    Reads (readMany (readConstant f) constants.length) (constants.flatMap f.toBytes) constants :=
  reads_many fun k _ => reads_constant lawful k

variable {reader : CircuitReader E}

theorem addTerms_of_le {totalTerms nterms : Nat}
    (within : totalTerms + nterms ≤ reader.maxTotalTerms) (machine : reader.maxTotalTerms < 2 ^ 64) :
    addTerms reader totalTerms nterms = .ok (totalTerms + nterms) := by
  have exact : saturatingAdd totalTerms nterms = totalTerms + nterms := by
    unfold saturatingAdd
    omega
  rw [addTerms, exact, check_of within, ok_bind, pure_eq_ok]

theorem roundTrip_layers {α : Type} {write : α → Exec ε Bytes}
    {readLayer : Nat → Reader String (Layer × Nat)} {size : α → Nat} {budget : Nat}
    {same : α → Layer → Prop} {layers : List α}
    (each : ∀ layer ∈ layers, ∀ total, total + size layer ≤ budget →
      ∃ layer', same layer layer' ∧
        RoundTrip (write layer) (readLayer total) (layer', total + size layer))
    (total : Nat) (within : total + (layers.map size).sum ≤ budget) :
    ∃ layers', List.Forall₂ same layers layers' ∧
      RoundTrip (writeAll write layers) (readLayers readLayer layers.length total) layers' := by
  induction layers generalizing total with
  | nil => exact ⟨[], .nil, roundTrip_pure [] (Reads.pure [])⟩
  | cons layer layers ih =>
    rw [List.map_cons, List.sum_cons] at within
    obtain ⟨layer', isSame, head⟩ := each layer (List.mem_cons_self ..) total (by omega)
    obtain ⟨layers', areSame, tail⟩ :=
      ih (fun later member => each later (List.mem_cons_of_mem _ member))
        (total + size layer) (by omega)
    exact ⟨layer' :: layers', .cons isSame areSame, head.append (tail.andReturn _)⟩

variable (limits : HeaderLimits raw) (constants : raw.constants.length ≤ maxConstants)
include limits constants

theorem validateRawCircuit_of : validateRawCircuit raw = .ok () := by
  simp only [validateRawCircuit, check_of limits.noutput,
    check_of (limits.npublicInput.trans limits.ninput), check_of limits.ninput,
    check_of limits.npublicInput, check_of constants, check_of limits.layers, ok_bind]

theorem reads_finish {sha256 : Bytes → Vector UInt8 32} {enforce : Bool} {id : Vector UInt8 32}
    (verified : enforce = true → (computeId sha256 reader.f raw : Exec String _) = .ok id) :
    Reads (finishCircuit sha256 reader enforce raw) id.toList ⟨raw, id⟩ := by
  refine (reads_takeVector id).checked ?_
  refine Reads.guarded (Reads.lift (validateRawCircuit_of limits constants)) ?_
  cases enforce with
  | false => exact Reads.pure _
  | true =>
    refine Reads.guarded (Reads.lift (verified rfl)) ?_
    exact Reads.demanded rfl (Reads.pure _)

end Longfellow
