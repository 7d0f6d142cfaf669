/-
**The compressed circuit format** (`core/proto/src/writer/lfc2.rs`,
`core/proto/src/reader/lfc2.rs`), and the dispatch on the format of a circuit.

The writer stores the constants and the compressed layers as they are: the table of deltas in
zigzag codes, the segments and the tokens. The reader checks every index, so it returns the very
circuit that was written, with the logarithm of the number of outputs computed anew.

* `circuit_formats_agree` — **both formats consume exactly what was written and return circuits
  with the same header, the same terms in every layer and the same identifier.**
-/

import Longfellow.Circuit.Lfc1
import Longfellow.Circuit.Uleb

namespace Longfellow

open Lib

variable {ε E : Type} (f : SerializableField E)

/-! ### The writer -/

/-- A number of 32 bits. -/
def serializeWord (val : UInt32) : Exec ε Bytes := serializeUleb128Max4 val.toNat

/-- An entry of the table of deltas. -/
def writeDelta (term : TermDelta) : Exec ε Bytes :=
  append (serializeWord (zigzagEncodeDelta term.g)) (append (serializeWord
    (zigzagEncodeDelta term.h0)) (append (serializeWord (zigzagEncodeDelta term.h1))
    (serializeWord term.kIndex)))

/-- A list with its length in front. -/
def writeCounted {α : Type} (write : α → Exec ε Bytes) (items : List α) : Exec ε Bytes :=
  append (serializeUleb128Max4 items.length) (writeAll write items)

/-- One layer. -/
def writeLayerLfc2 (layer : Layer) : Exec ε Bytes := do
  ensure (SaneLogw layer.logw) "layer logw must be sane"
  append (append (serializeUleb128Max4 layer.logw) (serializeUleb128Max4 layer.nw))
    (append (writeCounted writeDelta layer.deltas)
    (append (writeCounted (writeCounted serializeWord) layer.deltaSegments)
      (writeCounted serializeWord layer.deltaTokens)))

/-- The marker of the compressed format. -/
def magicLfc2 : Bytes := [0x4C, 0x46, 0x43, 0x32]

/-- A circuit in the compressed format. -/
def toBytesLfc2 (fieldId : FieldID) (scC : Circuit E) : Exec ε Bytes :=
  append (pure magicLfc2) (append (writeAll serializeUleb128Max4 (headerNumbers fieldId scC.raw))
    (append (serializeUleb128Max4 scC.raw.constants.length)
    (append (pure (scC.raw.constants.flatMap f.toBytes))
    (append (writeAll writeLayerLfc2 scC.raw.layers) (pure scC.id.toList)))))

/-! ### The reader -/

/-- Read a number of 32 bits. -/
def readWord : Reader String UInt32 := do
  let val ← readUleb128Max4
  pure (UInt32.ofNat val)

/-- Read an index into a table. -/
def readIndex (bound : Nat) (error : UInt32 → String) : Reader String UInt32 := do
  let index ← readWord
  demand (index.toNat < bound) (error index)
  pure index

/-- Read a list with its length in front. -/
def readCounted {α : Type} (limit : Nat) (error : Nat → String) (item : Reader String α) :
    Reader String (List α) := do
  let count ← readUleb128Max4
  demand (count ≤ limit) (error count)
  readMany item count

/-- Read an entry of the table of deltas. -/
def readDelta (nconstants : Nat) : Reader String TermDelta := do
  let g ← readWord
  let h0 ← readWord
  let h1 ← readWord
  let kIndex ← readIndex nconstants fun kIndex =>
    s!"v2 delta k_index out of bounds: {kIndex} >= {nconstants}"
  pure ⟨decodeZigzag g, decodeZigzag h0, decodeZigzag h1, kIndex⟩

/-- Read one layer. -/
def readLayerLfc2 (reader : CircuitReader E) (nconstants totalTerms : Nat) :
    Reader String (Layer × Nat) := do
  let (logw, nw) ← readDimensions readUleb128Max4
  let deltas ← readCounted maxDeltas
    (fun ndeltas => s!"Excessive deltas count: {ndeltas} (max {maxDeltas})") (readDelta nconstants)
  let deltaSegments ← readCounted maxDeltas
    (fun nSegments => s!"Excessive segments count: {nSegments} (max {maxDeltas})")
    (readCounted maxTermsPerLayer
      (fun segLen => s!"Excessive segment length: {segLen} (max {maxTermsPerLayer})")
      (readIndex deltas.length fun dIdx =>
        s!"v2 delta index out of bounds: {dIdx} >= {deltas.length}"))
  let deltaTokens ← readCounted maxTermsPerLayer
    (fun ntokens => s!"Excessive layer token count: {ntokens} (max {maxTermsPerLayer})")
    (readIndex deltaSegments.length fun tok =>
      s!"v2 token out of bounds: {tok} (segments={deltaSegments.length})")
  let layerNterms ← liftM (deltaTokens.foldlM (fun nterms tok => do
    let segment ← getAt deltaSegments tok.toNat
    pure (saturatingAdd nterms segment.length)) 0 : Exec String Nat)
  demand (layerNterms ≤ maxTermsPerLayer)
    s!"Excessive layer term count after expansion: {layerNterms} (max {maxTermsPerLayer})"
  let totalTerms ← liftM (addTerms reader totalTerms layerNterms)
  pure (⟨nw, logw, deltas, deltaSegments, deltaTokens⟩, totalTerms)

variable (sha256 : Bytes → Vector UInt8 32)

/-- Read a circuit after its marker. -/
def fromStreamLfc2Inner (reader : CircuitReader E) (enforceCircuitId : Bool) :
    Reader String (Circuit E) := do
  let header ← readHeader readUleb128Max4
  checkFieldId reader header.fid
  let numconst ← readNumConst readUleb128Max4
  let constants ← readMany (readConstant reader.f) numconst
  let layers ← readLayers (readLayerLfc2 reader constants.length) header.nl 0
  finishCircuit sha256 reader enforceCircuitId (header.toRaw constants layers)

/-- Read a circuit in the compressed format. -/
def fromBytesLfc2 (reader : CircuitReader E) (enforceCircuitId : Bool) :
    Reader String (Circuit E) := do
  let header ← takeBytes 4 "Empty or incomplete stream buffer"
  demand (header = magicLfc2)
    ("Unsupported LFC2 header: expected b\"LFC2\", got " ++ toString (header.map UInt8.toNat))
  fromStreamLfc2Inner sha256 reader enforceCircuitId

/-- Read a circuit in either format. -/
def fromBytes (reader : CircuitReader E) (enforceCircuitId : Bool) : Reader String (Circuit E) :=
  fun buf =>
    if buf.take 4 = magicLfc2 then
      (fromStreamLfc2Inner sha256 reader enforceCircuitId).run (buf.drop 4)
    else match buf with
      | 1 :: rest => (fromStreamLfc1Inner sha256 reader enforceCircuitId).run rest
      | _ => raise "Unsupported format header"

variable {f sha256}

/-! ### Each part is read back -/

theorem roundTrip_uleb :
    NumberFormat (serializeUleb128Max4 : Nat → Exec ε Bytes) readUleb128Max4 (2 ^ 28) :=
  fun _ small => ⟨_, serializeUleb128Max4_eq_ok.mpr ⟨small, rfl⟩, reads_uleb small⟩

theorem roundTrip_word {val : UInt32} (small : val.toNat < 2 ^ 28) :
    RoundTrip (serializeWord val : Exec ε Bytes) readWord val := by
  have whole := (roundTrip_uleb (ε := ε) _ small).andReturn UInt32.ofNat
  rwa [UInt32.ofNat_toNat] at whole

theorem roundTrip_index {val : UInt32} {bound : Nat} {error : UInt32 → String}
    (inside : val.toNat < bound) (small : bound ≤ 2 ^ 28) :
    RoundTrip (serializeWord val : Exec ε Bytes) (readIndex bound error) val :=
  (roundTrip_word (inside.trans_le small)).checked (Reads.demanded inside (Reads.pure val))

theorem roundTrip_counted {α : Type} {write : α → Exec ε Bytes} {item : Reader String α}
    {limit : Nat} {error : Nat → String} {items : List α} (few : items.length ≤ limit)
    (small : limit < 2 ^ 28) (each : ∀ a ∈ items, RoundTrip (write a) item a) :
    RoundTrip (writeCounted write items) (readCounted limit error item) items :=
  (roundTrip_uleb _ (few.trans_lt small)).append (RoundTrip.demanded few (roundTrip_all each))

/-- The differences of a delta fit in 28 bits with their sign. -/
def TermDelta.Fits (d : TermDelta) : Prop :=
  (zigzagEncodeDelta d.g).toNat < 2 ^ 28 ∧ (zigzagEncodeDelta d.h0).toNat < 2 ^ 28 ∧
    (zigzagEncodeDelta d.h1).toNat < 2 ^ 28

theorem roundTrip_delta {d : TermDelta} (fits : d.Fits) {nconstants : Nat}
    (inside : d.kIndex.toNat < nconstants) (few : nconstants ≤ maxConstants) :
    RoundTrip (writeDelta d : Exec ε Bytes) (readDelta nconstants) d := by
  have whole : RoundTrip (writeDelta d : Exec ε Bytes) (readDelta nconstants)
      ⟨decodeZigzag (zigzagEncodeDelta d.g), decodeZigzag (zigzagEncodeDelta d.h0),
        decodeZigzag (zigzagEncodeDelta d.h1), d.kIndex⟩ := by
    refine (roundTrip_word fits.1).append ?_
    refine (roundTrip_word fits.2.1).append ?_
    refine (roundTrip_word fits.2.2).append ?_
    exact (roundTrip_index inside (few.trans (by decide))).andReturn _
  simpa only [decodeZigzag_zigzagEncodeDelta] using whole

/-! ### Layers and circuits -/

/-- The limits on a layer. -/
structure Lfc2LayerLimits (nconstants : Nat) (layer : Layer) : Prop where
  logw : SaneLogw layer.logw
  nw : layer.nw ≤ maxLayerInputs
  inRange : layer.InRange nconstants
  fits : ∀ d ∈ layer.deltas, d.Fits
  deltas : layer.deltas.length ≤ maxDeltas
  segments : layer.deltaSegments.length ≤ maxDeltas
  segmentLengths : ∀ segment ∈ layer.deltaSegments, segment.length ≤ maxTermsPerLayer
  tokens : layer.deltaTokens.length ≤ maxTermsPerLayer
  size : layer.size ≤ maxTermsPerLayer

/-- The limits that the writer and the reader enforce on a circuit. -/
structure Lfc2Limits (reader : CircuitReader E) (raw : RawCircuit E) : Prop where
  header : HeaderLimits raw
  constants : raw.constants.length ≤ maxConstants
  layers : ∀ layer ∈ raw.layers, Lfc2LayerLimits raw.constants.length layer
  total : (raw.layers.map Layer.size).sum ≤ reader.maxTotalTerms

theorem countTerms_eq {layer : Layer} {tokens : List UInt32} (start : Nat)
    (inside : ∀ tok ∈ tokens, tok.toNat < layer.deltaSegments.length)
    (small : start + ((tokens.map layer.segmentAt).map List.length).sum < 2 ^ 64) :
    (tokens.foldlM (fun nterms tok => do
      let segment ← getAt layer.deltaSegments tok.toNat
      pure (saturatingAdd nterms segment.length)) start : Exec String Nat) =
      .ok (start + ((tokens.map layer.segmentAt).map List.length).sum) := by
  induction tokens generalizing start with
  | nil => rfl
  | cons tok tokens ih =>
    have bound := inside tok (List.mem_cons_self ..)
    have segment : layer.segmentAt tok = layer.deltaSegments[tok.toNat] := by
      rw [Layer.segmentAt, List.getD_eq_getElem _ _ bound]
    rw [List.map_cons, List.map_cons, List.sum_cons, ← Nat.add_assoc] at small ⊢
    have exact : saturatingAdd start (layer.segmentAt tok).length =
        start + (layer.segmentAt tok).length := by
      unfold saturatingAdd
      omega
    rw [List.foldlM_cons, getAt_of_lt bound, ok_bind, pure_eq_ok, ok_bind, ← segment, exact]
    exact ih _ (fun later member => inside later (List.mem_cons_of_mem _ member)) small

variable {reader : CircuitReader E}

/-- **A layer is read back** as it is. -/
theorem roundTrip_layerLfc2 {nconstants : Nat} (few : nconstants ≤ maxConstants) {layer : Layer}
    (limits : Lfc2LayerLimits nconstants layer) {total : Nat}
    (machine : reader.maxTotalTerms < 2 ^ 64) (within : total + layer.size ≤ reader.maxTotalTerms) :
    RoundTrip (writeLayerLfc2 layer : Exec ε Bytes) (readLayerLfc2 reader nconstants total)
      (layer, total + layer.size) := by
  have manyDeltas : maxDeltas < 2 ^ 28 := by decide
  have manyTerms : maxTermsPerLayer < 2 ^ 28 := by decide
  have counted := countTerms_eq 0 limits.inRange.tokens (by
    have := limits.size
    unfold Layer.size Layer.selected maxTermsPerLayer at this
    omega)
  rw [Nat.zero_add] at counted
  refine RoundTrip.ensured limits.logw ?_
  refine (roundTrip_dimensions roundTrip_uleb (by decide) limits.logw limits.nw).append ?_
  refine (roundTrip_counted limits.deltas manyDeltas fun d member =>
    roundTrip_delta (limits.fits d member) (limits.inRange.constants d member) few).append ?_
  refine (roundTrip_counted limits.segments manyDeltas fun segment member =>
    roundTrip_counted (limits.segmentLengths segment member) manyTerms fun index inSegment =>
      roundTrip_index (limits.inRange.segments segment member index inSegment)
        (limits.deltas.trans manyDeltas.le)).append ?_
  refine (roundTrip_counted limits.tokens manyTerms fun tok member =>
    roundTrip_index (limits.inRange.tokens tok member)
      (limits.segments.trans manyDeltas.le)).checked ?_
  refine Reads.guarded (Reads.lift counted) ?_
  refine Reads.demanded limits.size ?_
  exact Reads.guarded (Reads.lift (addTerms_of_le within machine)) (Reads.pure _)

variable {circuit : Circuit E} {enforce : Bool}

/-- **A circuit is read back as it is** after its marker. -/
theorem reads_lfc2Inner (lawful : LawfulField reader.f) (machine : reader.maxTotalTerms < 2 ^ 64)
    (limits : Lfc2Limits reader circuit.raw) (verified : enforce = true →
      (computeId sha256 reader.f circuit.raw : Exec String _) = .ok circuit.id) :
    ∃ bytes, (toBytesLfc2 reader.f reader.fieldId circuit : Exec String _) =
        .ok (magicLfc2 ++ bytes) ∧
      Reads (fromStreamLfc2Inner sha256 reader enforce) bytes circuit := by
  have each : ∀ layer ∈ circuit.raw.layers, ∀ total, total + layer.size ≤ reader.maxTotalTerms →
      ∃ layer', layer = layer' ∧ RoundTrip (writeLayerLfc2 layer : Exec String Bytes)
        (readLayerLfc2 reader circuit.raw.constants.length total) (layer', total + layer.size) :=
    fun layer member total within => ⟨layer, rfl, roundTrip_layerLfc2 limits.constants
      (limits.layers layer member) machine within⟩
  obtain ⟨layers, same, readBack⟩ := roundTrip_layers each 0 (by
    rw [Nat.zero_add]
    exact limits.total)
  obtain rfl := List.forall₂_eq_eq_eq ▸ same
  have whole : RoundTrip (append (writeAll serializeUleb128Max4
      (headerNumbers reader.fieldId circuit.raw))
      (append (serializeUleb128Max4 circuit.raw.constants.length)
      (append (pure (circuit.raw.constants.flatMap reader.f.toBytes))
      (append (writeAll writeLayerLfc2 circuit.raw.layers) (pure circuit.id.toList)))) :
        Exec String Bytes)
      (fromStreamLfc2Inner sha256 reader enforce) circuit := by
    refine (roundTrip_header roundTrip_uleb (by decide) _ limits.header).append ?_
    refine RoundTrip.demanded rfl ?_
    refine (roundTrip_numConst roundTrip_uleb (by decide) limits.constants).append ?_
    refine (roundTrip_pure _ (reads_constants lawful _)).append ?_
    refine readBack.append ?_
    exact roundTrip_pure _ (reads_finish limits.header limits.constants verified)
  obtain ⟨bytes, wrote, read⟩ := whole
  exact ⟨bytes, append_ok rfl wrote, read⟩

/-! ### The two formats agree -/

theorem SameCircuit.refl {raw : RawCircuit E}
    (expands : ∀ layer ∈ raw.layers, ∃ terms, (layer.terms raw.constants : Exec String _) =
      .ok terms) : SameCircuit raw raw := by
  refine ⟨rfl, rfl, rfl, rfl, rfl, List.forall₂_same.mpr fun layer member => ?_⟩
  obtain ⟨terms, expanded⟩ := expands layer member
  have count := (Layer.numTerms_of_terms expanded).1
  exact ⟨rfl, rfl, terms, expanded, expanded, count, count⟩

/-- What a decoder does with the encoding of a circuit: it consumes exactly the bytes written and
returns a circuit with the same header, the same terms in every layer and the same identifier. -/
structure DecodesTo (sha256 : Bytes → Vector UInt8 32) (f : SerializableField E)
    (circuit : Circuit E) (write : Exec String Bytes) (decoders : List (Reader String (Circuit E)))
    (decoded : Circuit E) : Prop where
  roundTrip : ∀ decoder ∈ decoders, RoundTrip write decoder decoded
  same : SameCircuit circuit.raw decoded.raw
  id : decoded.id = circuit.id
  computeId : (computeId sha256 f decoded.raw : Exec String _) = computeId sha256 f circuit.raw

theorem decodesTo_lfc1 (lawful : LawfulField reader.f) (machine : reader.maxTotalTerms < 2 ^ 64)
    (limits : Lfc1Limits reader circuit.raw) (verified : enforce = true →
      (computeId sha256 reader.f circuit.raw : Exec String _) = .ok circuit.id) :
    ∃ decoded, DecodesTo sha256 reader.f circuit (toBytesLfc1 reader.f reader.fieldId circuit)
      [fromBytesLfc1 sha256 reader enforce, fromBytes sha256 reader enforce] decoded := by
  obtain ⟨bytes, raw', wrote, same, read⟩ := reads_lfc1Inner lawful machine limits verified
  refine ⟨⟨raw', circuit.id⟩, ⟨?_, same, rfl, computeId_congr same⟩⟩
  intro decoder member
  refine ⟨_, wrote, ?_⟩
  rcases List.mem_pair.mp member with rfl | rfl
  · exact (reads_takeBytes (show ([1] : Bytes).length = 1 from rfl)).bind (Reads.demanded rfl read)
  · intro rest
    have other : ¬ ((1 :: bytes) ++ rest).take 4 = magicLfc2 := fun equal => by
      have first := congrArg List.head? equal
      simp [magicLfc2] at first
    show fromBytes sha256 reader enforce ((1 :: bytes) ++ rest) = _
    unfold fromBytes
    rw [if_neg other]
    exact read rest

theorem decodesTo_lfc2 (lawful : LawfulField reader.f) (machine : reader.maxTotalTerms < 2 ^ 64)
    (limits : Lfc2Limits reader circuit.raw) (verified : enforce = true →
      (computeId sha256 reader.f circuit.raw : Exec String _) = .ok circuit.id) :
    DecodesTo sha256 reader.f circuit (toBytesLfc2 reader.f reader.fieldId circuit)
      [fromBytesLfc2 sha256 reader enforce, fromBytes sha256 reader enforce] circuit := by
  obtain ⟨bytes, wrote, read⟩ := reads_lfc2Inner lawful machine limits verified
  have same : SameCircuit circuit.raw circuit.raw := SameCircuit.refl fun layer member => by
    obtain ⟨terms, expanded, _⟩ :=
      Layer.terms_returns (ε := String) (limits.layers layer member).inRange
    exact ⟨terms, expanded⟩
  refine ⟨?_, same, rfl, rfl⟩
  intro decoder member
  refine ⟨_, wrote, ?_⟩
  rcases List.mem_pair.mp member with rfl | rfl
  · exact (reads_takeBytes (show magicLfc2.length = 4 from rfl)).bind (Reads.demanded rfl read)
  · intro rest
    have marked : ((magicLfc2 ++ bytes) ++ rest).take 4 = magicLfc2 := rfl
    show fromBytes sha256 reader enforce ((magicLfc2 ++ bytes) ++ rest) = _
    unfold fromBytes
    rw [if_pos marked]
    exact read rest

/-- **Each format reads back what it wrote, and the two agree.** -/
theorem circuit_formats_agree (sha256 : Bytes → Vector UInt8 32) (reader : CircuitReader E)
    (lawful : LawfulField reader.f) (machine : reader.maxTotalTerms < 2 ^ 64)
    (circuit : Circuit E) (enforce : Bool) (verified : enforce = true →
      (computeId sha256 reader.f circuit.raw : Exec String _) = .ok circuit.id) :
    (Lfc1Limits reader circuit.raw → ∃ decoded, DecodesTo sha256 reader.f circuit
      (toBytesLfc1 reader.f reader.fieldId circuit)
      [fromBytesLfc1 sha256 reader enforce, fromBytes sha256 reader enforce] decoded) ∧
    (Lfc2Limits reader circuit.raw → ∃ decoded, DecodesTo sha256 reader.f circuit
      (toBytesLfc2 reader.f reader.fieldId circuit)
      [fromBytesLfc2 sha256 reader enforce, fromBytes sha256 reader enforce] decoded) ∧
    (Lfc1Limits reader circuit.raw → Lfc2Limits reader circuit.raw → ∃ decoded1 decoded2,
      RoundTrip (toBytesLfc1 reader.f reader.fieldId circuit : Exec String Bytes)
        (fromBytesLfc1 sha256 reader enforce) decoded1 ∧
      RoundTrip (toBytesLfc2 reader.f reader.fieldId circuit : Exec String Bytes)
        (fromBytesLfc2 sha256 reader enforce) decoded2 ∧
      SameCircuit decoded2.raw decoded1.raw ∧ decoded1.id = decoded2.id ∧
      (computeId sha256 reader.f decoded1.raw : Exec String _) =
        computeId sha256 reader.f decoded2.raw) := by
  refine ⟨fun limits => decodesTo_lfc1 lawful machine limits verified,
    fun limits => ⟨circuit, decodesTo_lfc2 lawful machine limits verified⟩,
    fun limits1 limits2 => ?_⟩
  obtain ⟨decoded, first⟩ := decodesTo_lfc1 lawful machine limits1 verified
  have second := decodesTo_lfc2 lawful machine limits2 verified
  exact ⟨decoded, circuit, first.roundTrip _ (by simp), second.roundTrip _ (by simp), first.same,
    first.id, first.computeId⟩

/-- A hash for the concrete circuits below. -/
def zeroHash (_ : Bytes) : Vector UInt8 32 := Vector.replicate 32 0

/-- A circuit of one layer with a repeated segment and a difference that wraps around. -/
def smallCircuit : Circuit (Fin 251) where
  raw := { ninput := 4, npublicInput := 1, noutput := 2, logv := 1, subfieldBoundary := 0,
           constants := [1, 250],
           layers := [⟨4, 2, [⟨0, 1, 2, 0⟩, ⟨1, 0xFFFFFFFF, 0, 1⟩], [[0], [1]], [0, 1]⟩] }
  id := Vector.replicate 32 0

theorem lfc1Limits_smallCircuit :
    Lfc1Limits (.new (primeField 251 1) .fp64) smallCircuit.raw := by
  refine ⟨⟨by decide, rfl, by decide, by decide, by decide, by decide⟩, ?_, ?_, by decide⟩
  · intro table collected
    obtain rfl := Except.ok.inj collected
    decide
  · intro layer member
    obtain rfl := List.mem_singleton.mp member
    exact ⟨[⟨1, 0, 1, 2⟩, ⟨250, 1, 0, 2⟩], ⟨by decide, by decide, rfl, by decide,
      ⟨by decide, by decide, trivial⟩⟩⟩

theorem lfc2Limits_smallCircuit :
    Lfc2Limits (.new (primeField 251 1) .fp64) smallCircuit.raw := by
  refine ⟨⟨by decide, rfl, by decide, by decide, by decide, by decide⟩, by decide, ?_, by decide⟩
  intro layer member
  obtain rfl := List.mem_singleton.mp member
  refine ⟨by decide, by decide, by decide, ?_, by decide, by decide, by decide, by decide,
    by decide⟩
  unfold TermDelta.Fits
  decide

theorem circuit_formats_agree_small :
    Lfc1Limits (.new (primeField 251 1) .fp64) smallCircuit.raw ∧
    Lfc2Limits (.new (primeField 251 1) .fp64) smallCircuit.raw ∧
    ∃ decoded1 decoded2,
      RoundTrip (toBytesLfc1 (primeField 251 1) .fp64 smallCircuit : Exec String Bytes)
        (fromBytesLfc1 zeroHash (.new (primeField 251 1) .fp64) true) decoded1 ∧
      RoundTrip (toBytesLfc2 (primeField 251 1) .fp64 smallCircuit : Exec String Bytes)
        (fromBytesLfc2 zeroHash (.new (primeField 251 1) .fp64) true) decoded2 ∧
      SameCircuit decoded2.raw decoded1.raw ∧ decoded1.id = decoded2.id := by
  obtain ⟨_, _, agree⟩ := circuit_formats_agree zeroHash (.new (primeField 251 1) .fp64)
    (lawful_primeField (by decide)) (by decide) smallCircuit true fun _ => rfl
  obtain ⟨decoded1, decoded2, first, second, same, id, _⟩ :=
    agree lfc1Limits_smallCircuit lfc2Limits_smallCircuit
  exact ⟨lfc1Limits_smallCircuit, lfc2Limits_smallCircuit, decoded1, decoded2, first, second, same,
    id⟩

/-- A circuit whose logarithm of the number of outputs is not the one that the readers compute. -/
def skewedCircuit : Circuit (Fin 251) where
  raw := { ninput := 1, npublicInput := 1, noutput := 1, logv := 1, subfieldBoundary := 0,
           constants := [], layers := [] }
  id := Vector.replicate 32 0

/-- Both formats lose a logarithm that is not computed from the number of outputs. -/
theorem circuit_formats_lose_logv :
    (∃ bytes decoded, (toBytesLfc1 (primeField 251 1) .fp64 skewedCircuit : Exec String Bytes) =
        .ok bytes ∧
      (fromBytesLfc1 zeroHash (.new (primeField 251 1) .fp64) false).run bytes =
        .ok (decoded, []) ∧ decoded.raw.logv ≠ skewedCircuit.raw.logv) ∧
    (∃ bytes decoded, (toBytesLfc2 (primeField 251 1) .fp64 skewedCircuit : Exec String Bytes) =
        .ok bytes ∧
      (fromBytesLfc2 zeroHash (.new (primeField 251 1) .fp64) false).run bytes =
        .ok (decoded, []) ∧ decoded.raw.logv ≠ skewedCircuit.raw.logv) := by
  refine ⟨⟨_, ⟨{ skewedCircuit.raw with logv := 0 }, skewedCircuit.id⟩, rfl, rfl, by decide⟩,
    ⟨_, ⟨{ skewedCircuit.raw with logv := 0 }, skewedCircuit.id⟩, rfl, rfl, by decide⟩⟩

end Longfellow
