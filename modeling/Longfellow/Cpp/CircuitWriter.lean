/-
**The circuit writer of the other implementation** (`lib/proto/circuit_writer.h`).

The writer emits the same format as its counterpart, from 64-bit differences of indices and a hash
table of coefficients. What it emits is what its counterpart emits for the same terms, so the reader
of the other implementation takes it back.

* `writeLayer_eq` — **a layer**: the two writers emit the same bytes.
-/

import Longfellow.Cpp.CircuitReader

namespace Longfellow.Cpp

open Lib

variable {ε E : Type} [DecidableEq E]

/-! ### The writer -/

/-- The coefficients that occur, and the index of each. -/
structure KvecBuilder (E : Type) where
  table : List (E × ℕ)
  kvec : List E

/-- Store a coefficient at its first occurrence. -/
def KvecBuilder.kstore (kb : KvecBuilder E) (k : E) : KvecBuilder E :=
  match kb.table.lookup k with
  | some _ => kb
  | none => ⟨kb.table ++ [(k, kb.kvec.length)], kb.kvec ++ [k]⟩

def KvecBuilder.kload (kb : KvecBuilder E) (k : E) : Exec ε ℕ :=
  expect (kb.table.lookup k) "kload() failed"

/-- Store the coefficients of a layer. -/
def KvecBuilder.storeLayer (kb : KvecBuilder E) (layer : Layer E) : Exec ε (KvecBuilder E) := do
  let corners ← layer.quad.corners
  pure (corners.foldl (fun kb ec => kb.kstore ec.k) kb)

/-- The coefficients of the layers of a circuit. -/
def collectConstants (layers : List (Layer E)) : Exec ε (KvecBuilder E) :=
  layers.foldlM KvecBuilder.storeLayer ⟨[], []⟩

def kMaxValue : ℕ := 2 ^ (kBytesPerSizeT * 8) - 1

def serializeNum (g : ℕ) : Exec ε Bytes := do
  ensure (g ≤ kMaxValue) "Violating small wire-label assumption"
  pure (leBytes kBytesPerSizeT g)

def serializeSize (sz : ℕ) : Exec ε Bytes := serializeNum sz

def serializeFieldId (id : FieldID) : Exec ε Bytes := serializeNum id.code

/-- The difference of an index to the previous one, with its sign in the lowest bit. -/
def serializeIndex (index prevIndex : UInt32) : Exec ε Bytes :=
  let ind := index.toNat
  let prevInd := prevIndex.toNat
  if ind ≥ prevInd then serializeNum (2 * (ind - prevInd))
  else serializeNum (2 * (prevInd - ind) + 1)

/-- A corner, relative to the one before. -/
def writeCorner (kb : KvecBuilder E) (prev : Wires) (ec : Term E) : Exec ε Bytes :=
  append (serializeIndex ec.g prev.g) (append (serializeIndex ec.h0 prev.h0)
    (append (serializeIndex ec.h1 prev.h1) (do
      let vi ← kb.kload ec.k
      serializeNum vi)))

def writeCorners (kb : KvecBuilder E) : Wires → List (Term E) → Exec ε Bytes
  | _, [] => pure []
  | prev, ec :: corners => append (writeCorner kb prev ec) (writeCorners kb ec.wires corners)

def writeLayer (kb : KvecBuilder E) (layer : Layer E) : Exec ε Bytes :=
  append (append (serializeSize layer.logw) (serializeSize layer.nw))
    (append (serializeSize layer.quad.size) (do
      let corners ← layer.quad.corners
      writeCorners kb Wires.zero corners))

/-- A circuit. -/
def toBytes (f : Field E) (fieldId : FieldID) (scC : Circuit E) : Exec ε Bytes := do
  let kb ← collectConstants scC.l
  append (pure [1]) (append (append (serializeFieldId fieldId) (writeAll serializeSize [scC.nv,
    scC.nc, scC.npubIn, scC.subfieldBoundary, scC.ninputs, scC.l.length]))
    (append (serializeSize kb.kvec.length) (append (pure (kb.kvec.flatMap f.toBytesField))
    (append (writeAll (writeLayer kb) scC.l) (pure scC.id.toList)))))

/-! ### Numbers -/

variable {bytes : Bytes}

theorem serializeNum_eq_ok {g : ℕ} :
    (serializeNum g : Exec ε Bytes) = .ok bytes ↔ g < 2 ^ 24 ∧ bytes = leBytes 3 g := by
  have limit : g ≤ kMaxValue ↔ g < 2 ^ 24 := by
    unfold kMaxValue kBytesPerSizeT
    omega
  rw [serializeNum, bind_eq_ok]
  constructor
  · rintro ⟨_, small, wrote⟩
    exact ⟨limit.mp (ensure_eq_ok.mp small), (Except.ok.inj wrote).symm⟩
  · rintro ⟨small, rfl⟩
    exact ⟨(), ensure_eq_ok.mpr (limit.mpr small), rfl⟩

theorem serializeNum_same {g : ℕ} (wrote : (serializeNum g : Exec ε Bytes) = .ok bytes) :
    (Longfellow.serializeNum g : Exec ε Bytes) = .ok bytes := by
  obtain ⟨small, rfl⟩ := serializeNum_eq_ok.mp wrote
  exact serializeNum_of_lt small

theorem roundTrip_serializeNum :
    NumberFormat (serializeNum : ℕ → Exec ε Bytes) readNumStream (2 ^ 24) := by
  intro n small
  exact ⟨leBytes 3 n, serializeNum_eq_ok.mpr ⟨small, rfl⟩,
    (roundTrip_num n small).reads (serializeNum_of_lt (ε := String) small)⟩

/-- **An index that is written** is near the previous one, and both writers write it alike. -/
theorem serializeIndex_eq_ok {index prevIndex : UInt32}
    (wrote : (serializeIndex index prevIndex : Exec ε Bytes) = .ok bytes) :
    Reaches prevIndex index ∧
      (Longfellow.serializeIndex index prevIndex : Exec ε Bytes) = .ok bytes := by
  have code : ∃ code, serializeNum code = (.ok bytes : Exec ε Bytes) ∧
      code = if prevIndex ≤ index then 2 * (index.toNat - prevIndex.toNat)
        else 2 * (prevIndex.toNat - index.toNat) + 1 := by
    unfold serializeIndex at wrote
    by_cases order : prevIndex ≤ index
    · have order' : index.toNat ≥ prevIndex.toNat := order
      rw [if_pos order'] at wrote
      exact ⟨_, wrote, (if_pos order).symm⟩
    · have order' : ¬ index.toNat ≥ prevIndex.toNat := order
      rw [if_neg order'] at wrote
      exact ⟨_, wrote, (if_neg order).symm⟩
  obtain ⟨code, written, value⟩ := code
  obtain ⟨small, _⟩ := serializeNum_eq_ok.mp written
  have near : Reaches prevIndex index := by
    by_cases order : prevIndex ≤ index
    · have order' : prevIndex.toNat ≤ index.toNat := order
      rw [if_pos order] at value
      constructor <;> omega
    · have order' : index.toNat < prevIndex.toNat := Nat.lt_of_not_le order
      rw [if_neg order] at value
      constructor <;> omega
  refine ⟨near, ?_⟩
  rw [Longfellow.serializeIndex, toNat_foldIndex near, ← value]
  exact serializeNum_same written

/-! ### The table of coefficients -/

variable {g : SerializableField E}

/-- The table of the other writer, which finds a coefficient by its bytes. -/
def KvecBuilder.toTable (g : SerializableField E) (kb : KvecBuilder E) : CoefficientTable E :=
  ⟨kb.table.map fun entry => (g.toBytes entry.1, entry.2), kb.kvec⟩

omit [DecidableEq E] in
theorem toBytes_injective (lawful : LawfulField g) : Function.Injective g.toBytes := by
  intro k k' same
  have parsed := lawful.parse_toBytes k
  rw [same, lawful.parse_toBytes k'] at parsed
  exact (Except.ok.inj parsed).symm

section

variable (lawful : LawfulField g) (kb : KvecBuilder E)
include lawful kb

theorem lookup_toTable (k : E) :
    (kb.toTable g).kToIndex.lookup (g.toBytes k) = kb.table.lookup k := by
  rw [KvecBuilder.toTable]
  dsimp only
  induction kb.table with
  | nil => rfl
  | cons entry table ih =>
    rw [List.map_cons, List.lookup_cons, List.lookup_cons, ih]
    by_cases same : k = entry.1
    · rw [same, beq_self_eq_true, beq_self_eq_true]
    · rw [beq_false_of_ne same, beq_false_of_ne fun bytes => same (toBytes_injective lawful bytes)]

theorem kstore_toTable (k : E) :
    (kb.kstore k).toTable g = (kb.toTable g).insert g k := by
  rw [KvecBuilder.kstore, CoefficientTable.insert, lookup_toTable lawful]
  cases kb.table.lookup k with
  | some i => rfl
  | none =>
    rw [KvecBuilder.toTable, List.map_append]
    rfl

theorem foldl_kstore_toTable (corners : List (Term E)) :
    (corners.foldl (fun kb ec => kb.kstore ec.k) kb).toTable g =
      corners.foldl (fun table term => table.insert g term.k) (kb.toTable g) := by
  induction corners generalizing kb with
  | nil => rfl
  | cons ec corners ih => rw [List.foldl_cons, List.foldl_cons, ih, kstore_toTable lawful]

end

variable {kb : KvecBuilder E} {layers : List (Layer E)}

/-- **The coefficients of every layer** are in the table. -/
theorem collectConstants_covers (lawful : LawfulField g)
    (collected : (collectConstants layers : Exec String _) = .ok kb) :
    (kb.toTable g).Sound g ∧ ∀ layer ∈ layers, ∀ {corners},
      (layer.quad.corners : Exec String _) = .ok corners →
        ∀ ec ∈ corners, (kb.toTable g).Covers g ec.k := by
  suffices general : ∀ (layers : List (Layer E)) (start kb : KvecBuilder E),
      (layers.foldlM KvecBuilder.storeLayer start : Exec String _) = .ok kb →
      (start.toTable g).Sound g → (kb.toTable g).Sound g ∧
        (∀ k, (start.toTable g).Covers g k → (kb.toTable g).Covers g k) ∧
        ∀ layer ∈ layers, ∀ {corners}, (layer.quad.corners : Exec String _) = .ok corners →
          ∀ ec ∈ corners, (kb.toTable g).Covers g ec.k by
    obtain ⟨sound, _, covers⟩ := general layers ⟨[], []⟩ kb collected
      fun looked => absurd looked (by simp [KvecBuilder.toTable])
    exact ⟨sound, covers⟩
  intro layers
  induction layers with
  | nil =>
    intro start kb collected sound
    obtain rfl := Except.ok.inj collected
    exact ⟨sound, fun _ covered => covered, fun _ member => absurd member List.not_mem_nil⟩
  | cons layer layers ih =>
    intro start kb collected sound
    rw [List.foldlM_cons] at collected
    obtain ⟨middle, stored, collected⟩ := bind_eq_ok.mp collected
    obtain ⟨terms, ran, stored⟩ := bind_eq_ok.mp stored
    obtain rfl := Except.ok.inj stored
    obtain ⟨soundNext, coversNext, keepsNext⟩ :=
      CoefficientTable.foldl_insert_spec sound terms
    rw [← foldl_kstore_toTable lawful] at soundNext coversNext keepsNext
    obtain ⟨soundLast, keeps, covers⟩ := ih _ _ collected soundNext
    refine ⟨soundLast, fun k covered => keeps k (keepsNext k covered), ?_⟩
    refine List.forall_mem_cons.mpr ⟨?_, covers⟩
    intro corners ran' ec member
    obtain rfl := Except.ok.inj (ran.symm.trans ran')
    exact keeps _ (coversNext ec member)

/-! ### Layers -/

/-- **A corner that is written** is near the one before, and both writers write it alike. -/
theorem writeCorner_eq (lawful : LawfulField g) {prev : Wires} {ec : Term E}
    (wrote : (writeCorner kb prev ec : Exec ε Bytes) = .ok bytes) :
    (Reaches prev.g ec.g ∧ Reaches prev.h0 ec.h0 ∧ Reaches prev.h1 ec.h1) ∧
      (writeTerm g (kb.toTable g) prev ec : Exec ε Bytes) = .ok bytes := by
  obtain ⟨first, _, wroteG, afterG, rfl⟩ := append_eq_ok.mp wrote
  obtain ⟨second, _, wroteH0, afterH0, rfl⟩ := append_eq_ok.mp afterG
  obtain ⟨third, last, wroteH1, afterH1, rfl⟩ := append_eq_ok.mp afterH0
  obtain ⟨vi, loaded, wroteVi⟩ := bind_eq_ok.mp afterH1
  obtain ⟨nearG, sameG⟩ := serializeIndex_eq_ok wroteG
  obtain ⟨nearH0, sameH0⟩ := serializeIndex_eq_ok wroteH0
  obtain ⟨nearH1, sameH1⟩ := serializeIndex_eq_ok wroteH1
  refine ⟨⟨nearG, nearH0, nearH1⟩, ?_⟩
  refine append_ok sameG (append_ok sameH0 (append_ok sameH1 ?_))
  rw [lookup_toTable lawful, expect_eq_ok.mpr (expect_eq_ok.mp loaded), ok_bind]
  exact serializeNum_same wroteVi

theorem writeCorners_eq (lawful : LawfulField g) {prev : Wires} {corners : List (Term E)}
    (wrote : (writeCorners kb prev corners : Exec ε Bytes) = .ok bytes) :
    Near prev corners ∧ (writeTerms g (kb.toTable g) prev corners : Exec ε Bytes) = .ok bytes := by
  induction corners generalizing prev bytes with
  | nil => exact ⟨trivial, wrote⟩
  | cons ec corners ih =>
    obtain ⟨head, tail, wroteHead, wroteTail, rfl⟩ := append_eq_ok.mp wrote
    obtain ⟨near, sameHead⟩ := writeCorner_eq lawful wroteHead
    obtain ⟨later, sameTail⟩ := ih wroteTail
    exact ⟨⟨near, later⟩, append_ok sameHead sameTail⟩

/-- The gates of a layer in one segment. -/
def Layer.toUncompressed (layer : Layer E) : Longfellow.Layer :=
  .newUncompressed layer.nw layer.logw layer.quad.deltaTable layer.quad.vc

omit [DecidableEq E] in
theorem terms_toUncompressed (layer : Layer E) :
    (layer.toUncompressed.terms layer.quad.kvec : Exec ε _) = layer.quad.corners := by
  rw [Longfellow.Layer.terms, Longfellow.Layer.deltaSequence, Quad.corners, Layer.toUncompressed,
    deltaIndices_newUncompressed, ok_bind]
  rfl

/-- **A layer that is written**: both writers emit the same bytes. -/
theorem writeLayer_eq (lawful : LawfulField g) {layer : Layer E} (sane : SaneLogw layer.logw)
    (wrote : (writeLayer kb layer : Exec String Bytes) = .ok bytes) :
    (writeLayerLfc1 g (kb.toTable g) layer.quad.kvec layer.toUncompressed : Exec String Bytes) =
        .ok bytes ∧
      ∃ corners, (layer.quad.corners : Exec String _) = .ok corners ∧
        corners.length < 2 ^ 24 ∧ Near Wires.zero corners := by
  obtain ⟨_, _, dimensions, gates, rfl⟩ := append_eq_ok.mp wrote
  obtain ⟨_, _, wroteLogw, wroteNw, rfl⟩ := append_eq_ok.mp dimensions
  obtain ⟨_, _, wroteSize, wroteGates, rfl⟩ := append_eq_ok.mp gates
  obtain ⟨corners, ran, wroteCorners⟩ := bind_eq_ok.mp wroteGates
  obtain ⟨near, sameGates⟩ := writeCorners_eq lawful wroteCorners
  have expands : (layer.toUncompressed.terms layer.quad.kvec : Exec String _) = .ok corners :=
    (terms_toUncompressed layer).trans ran
  have size := Quad.size_eq ran
  refine ⟨?_, corners, ran, size ▸ (serializeNum_eq_ok.mp wroteSize).1, near⟩
  rw [writeLayerLfc1, ensure_of (show SaneLogw layer.toUncompressed.logw from sane), ok_bind]
  refine append_ok (append_ok (serializeNum_same wroteLogw) (serializeNum_same wroteNw))
    (append_ok ?_ ?_)
  · rw [(Layer.numTerms_of_terms expands).1, ok_bind, ← size]
    exact serializeNum_same wroteSize
  · rw [expands, ok_bind]
    exact sameGates

/-! ### Circuits -/

/-- The limits of the reader of the other implementation. -/
structure Circuit.RustLimits (reader : CircuitReader E) (c : Circuit E) : Prop where
  outputs : 0 < c.nv
  nv : c.nv ≤ maxWires
  npubIn : c.npubIn ≤ c.ninputs
  ninputs : c.ninputs ≤ maxWires
  subfieldBoundary : c.subfieldBoundary ≤ maxWires
  layers : c.l.length ≤ maxLayers
  constants : ∀ {kb}, (collectConstants c.l : Exec String _) = .ok kb →
    kb.kvec.length ≤ maxConstants
  logw : ∀ layer ∈ c.l, SaneLogw layer.logw
  nw : ∀ layer ∈ c.l, layer.nw ≤ maxLayerInputs
  total : (c.l.map fun layer => layer.quad.size).sum ≤ reader.maxTotalTerms

/-- **A layer that is written** is read by the other implementation. -/
theorem roundTrip_layer {reader : CircuitReader E} (lawful : LawfulField reader.f)
    (collected : (collectConstants layers : Exec String _) = .ok kb)
    (few : kb.kvec.length ≤ maxConstants) {layer : Layer E} (member : layer ∈ layers)
    (sane : SaneLogw layer.logw) (narrow : layer.nw ≤ maxLayerInputs)
    (wrote : (writeLayer kb layer : Exec String Bytes) = .ok bytes) {total : ℕ}
    (machine : reader.maxTotalTerms < 2 ^ 64)
    (within : total + layer.quad.size ≤ reader.maxTotalTerms) :
    ∃ layer', layer.SameAs kb.kvec layer' ∧
      RoundTrip (writeLayer kb layer : Exec String Bytes)
        (readLayerLfc1 reader kb.kvec.length total) (layer', total + layer.quad.size) := by
  obtain ⟨sound, covers⟩ := collectConstants_covers lawful collected
  obtain ⟨sameBytes, corners, ran, count, near⟩ := writeLayer_eq lawful sane wrote
  have expands : (layer.toUncompressed.terms layer.quad.kvec : Exec String _) = .ok corners :=
    (terms_toUncompressed layer).trans ran
  have size : layer.toUncompressed.size = layer.quad.size :=
    (Layer.numTerms_of_terms expands).2.trans (Quad.size_eq ran).symm
  rw [← size] at within ⊢
  obtain ⟨layer', same, trip⟩ := roundTrip_layerLfc1 lawful sound few
    ⟨sane, narrow, expands, count, near⟩ (covers layer member ran) machine within
  rw [sameBytes, ← wrote] at trip
  refine ⟨layer', ⟨same.nw, same.logw, corners, ran, ?_⟩, trip⟩
  obtain ⟨terms, left, right, _, _⟩ := same.terms
  obtain rfl := Except.ok.inj (left.symm.trans expands)
  exact right

/-- The counts of a circuit, for the other implementation. -/
def Circuit.toRaw (c : Circuit E) : RawCircuit E where
  ninput := c.ninputs
  npublicInput := c.npubIn
  noutput := c.nv
  logv := lgLoop c.nv
  subfieldBoundary := c.subfieldBoundary
  constants := []
  layers := c.l.map Layer.toUncompressed

omit [DecidableEq E] in
theorem Circuit.headerLimits {c : Circuit E} (outputs : 0 < c.nv) (nv : c.nv ≤ maxWires)
    (npubIn : c.npubIn ≤ c.ninputs) (ninputs : c.ninputs ≤ maxWires)
    (subfieldBoundary : c.subfieldBoundary ≤ maxWires) (layers : c.l.length ≤ maxLayers) :
    HeaderLimits c.toRaw :=
  ⟨nv, ceilLog2_of_pos outputs, npubIn, ninputs, subfieldBoundary, by
    rwa [Circuit.toRaw, List.length_map]⟩

variable {sha256 : Bytes → Vector UInt8 32} {f : Field E} {reader : CircuitReader E}

/-- **A circuit that is written** and within the limits is read by the other implementation. -/
theorem toBytes_read (same : SameField f reader.f) (lawful : LawfulField reader.f)
    (machine : reader.maxTotalTerms < 2 ^ 64) {c : Circuit E} (one : c.nc = 1)
    (wrote : (toBytes f reader.fieldId c : Exec String Bytes) = .ok bytes)
    (limits : c.RustLimits reader) {enforce : Bool}
    (verified : enforce = true → c.OneCopy ∧ (circuitId sha256 f c : Exec String _) = .ok c.id) :
    ∃ raw, Reads (fromBytesLfc1 sha256 reader enforce) bytes ⟨raw, c.id⟩ ∧ c.SameAs raw := by
  obtain ⟨kb, collected, written⟩ := bind_eq_ok.mp wrote
  obtain ⟨_, _, wroteVersion, afterVersion, rfl⟩ := append_eq_ok.mp written
  obtain ⟨_, _, wroteHeader, afterHeader, rfl⟩ := append_eq_ok.mp afterVersion
  obtain ⟨_, _, wroteCount, afterCount, rfl⟩ := append_eq_ok.mp afterHeader
  obtain ⟨_, _, wroteConstants, afterConstants, rfl⟩ := append_eq_ok.mp afterCount
  obtain ⟨_, _, wroteLayers, wroteId, rfl⟩ := append_eq_ok.mp afterConstants
  obtain rfl := Except.ok.inj wroteVersion
  obtain rfl := Except.ok.inj wroteConstants
  obtain rfl := Except.ok.inj wroteId
  have few := limits.constants collected
  have headerLimits := Circuit.headerLimits limits.outputs limits.nv limits.npubIn limits.ninputs
    limits.subfieldBoundary limits.layers
  have each : ∀ layer ∈ c.l, ∀ total, total + layer.quad.size ≤ reader.maxTotalTerms →
      ∃ layer', layer.SameAs kb.kvec layer' ∧ RoundTrip (writeLayer kb layer : Exec String Bytes)
        (readLayerLfc1 reader kb.kvec.length total) (layer', total + layer.quad.size) := by
    intro layer member total within
    obtain ⟨part, wrotePart⟩ := wrote_of_writeAll wroteLayers layer member
    exact roundTrip_layer lawful collected few member (limits.logw layer member)
      (limits.nw layer member) wrotePart machine within
  obtain ⟨layers', sameLayers, trip⟩ := roundTrip_layers each 0 (by
    rw [Nat.zero_add]
    exact limits.total)
  set raw := (headerOf reader.fieldId c.toRaw).toRaw kb.kvec layers' with raw_eq
  have sameAs : c.SameAs raw := ⟨rfl, rfl, rfl, rfl, sameLayers⟩
  have rawLimits : HeaderLimits raw := by
    refine ⟨headerLimits.noutput, headerLimits.logv, headerLimits.npublicInput,
      headerLimits.ninput, headerLimits.subfieldBoundary, ?_⟩
    exact sameLayers.length_eq ▸ limits.layers
  have verified' : enforce = true →
      (computeId sha256 reader.f raw : Exec String _) = .ok c.id := by
    intro on
    obtain ⟨oneCopy, identified⟩ := verified on
    exact (circuitId_eq same sameAs oneCopy oneCopy.logv.symm).symm.trans identified
  refine ⟨raw, ?_, sameAs⟩
  have numbers : headerNumbers reader.fieldId c.toRaw = [reader.fieldId.code, c.nv, c.nc, c.npubIn,
      c.subfieldBoundary, c.ninputs, c.l.length] := by
    rw [headerNumbers, one, Circuit.toRaw, List.length_map]
  have header := roundTrip_header (roundTrip_serializeNum (ε := String)) le_rfl reader.fieldId
    headerLimits
  rw [numbers] at header
  have count := roundTrip_numConst (roundTrip_serializeNum (ε := String)) le_rfl few
  have constants := reads_constants lawful kb.kvec
  rw [← same.toBytes] at constants
  refine (reads_takeBytes (show [(1 : UInt8)].length = 1 from rfl)).bind (Reads.demanded rfl ?_)
  refine (header.reads wroteHeader).bind ((count.reads wroteCount).bind (Reads.demanded rfl ?_))
  refine constants.bind ?_
  rw [show (headerOf reader.fieldId c.toRaw).nl = c.l.length from List.length_map _]
  exact (trip.reads wroteLayers).bind (reads_finish rawLimits few verified')

/-- **The two codecs agree**: on what both readers accept, and on what the writer emits. -/
theorem circuitCodecs_agree (same : SameField f reader.f) (lawful : LawfulField reader.f)
    (budget : reader.maxTotalTerms ≤ 2 ^ 32) (enforce enforce' : Bool) :
    (∀ bytes c circuit rest rest',
      (fromBytes sha256 f reader.fieldId enforce).run bytes = .ok (c, rest) →
      (fromBytesLfc1 sha256 reader enforce').run bytes = .ok (circuit, rest') →
      (c.OneCopy ∧ c.SameAs circuit.raw ∧ circuit.raw.logv = c.logv ∧ circuit.id = c.id) ∧
        rest' = rest) ∧
    ∀ c bytes, c.nc = 1 → (toBytes f reader.fieldId c : Exec String Bytes) = .ok bytes →
      c.RustLimits reader →
      (enforce' = true → c.OneCopy ∧ (circuitId sha256 f c : Exec String _) = .ok c.id) →
      ∃ raw, Reads (fromBytesLfc1 sha256 reader enforce') bytes ⟨raw, c.id⟩ ∧ c.SameAs raw :=
  ⟨agree_circuit same budget enforce enforce', fun _ _ one wrote limits verified =>
    toBytes_read same lawful (budget.trans_lt (by decide)) one wrote limits verified⟩

/-- A circuit of one gate, over the field of seven elements. -/
def smallCircuit : Circuit (Fin 7) where
  nv := 1
  logv := 0
  nc := 1
  logc := 0
  nl := 1
  ninputs := 1
  npubIn := 0
  subfieldBoundary := 0
  l := [⟨1, 1, ⟨[0], [⟨0, 0, 0, 0⟩], [3]⟩⟩]
  id := Vector.replicate 32 0

def smallBytes : Bytes :=
  [1, 1, 0, 0, 1, 0, 0, 1, 0, 0, 0, 0, 0, 0, 0, 0, 1, 0, 0, 1, 0, 0, 1, 0, 0, 3, 1, 0, 0, 1, 0, 0,
    1, 0, 0, 0, 0, 0, 0, 0, 0, 0, 0, 0, 0, 0, 0] ++ List.replicate 32 0

def smallReader : CircuitReader (Fin 7) := .new (Longfellow.primeField 7 1) .p256

theorem smallCircuit_written :
    (toBytes (primeField 7 1) .p256 smallCircuit : Exec String Bytes) = .ok smallBytes := by
  decide +kernel

theorem smallCircuit_read : (fromBytes (fun _ => Vector.replicate 32 0) (primeField 7 1) .p256
    false).run smallBytes = .ok (smallCircuit, []) := by
  decide +kernel

/-- Both implementations read a circuit of one gate that one of them wrote. -/
theorem circuitCodecs_agree_small :
    ∃ raw, (fromBytesLfc1 (fun _ => Vector.replicate 32 0) smallReader false).run smallBytes =
        .ok (⟨raw, smallCircuit.id⟩, []) ∧
      smallCircuit.OneCopy ∧ smallCircuit.SameAs raw := by
  have both := @circuitCodecs_agree (Fin 7) _ (fun _ => Vector.replicate 32 0) (primeField 7 1)
    smallReader sameField_primeField (lawful_primeField (by decide)) (by decide) false false
  have constants : ∀ {kb}, (collectConstants smallCircuit.l : Exec String _) = .ok kb →
      kb.kvec.length ≤ maxConstants := by
    intro kb collected
    have one : (collectConstants smallCircuit.l : Exec String _) = .ok ⟨[(3, 0)], [3]⟩ := rfl
    obtain rfl := Except.ok.inj (one.symm.trans collected)
    decide
  obtain ⟨raw, read, _⟩ := both.2 smallCircuit smallBytes rfl smallCircuit_written
    ⟨by decide, by decide, by decide, by decide, by decide, by decide, constants, by decide,
      by decide, by decide⟩ Bool.noConfusion
  have ran := read []
  obtain ⟨⟨one, same, _⟩, _⟩ := both.1 smallBytes smallCircuit _ [] [] smallCircuit_read ran
  exact ⟨raw, ran, one, same⟩

end Longfellow.Cpp
