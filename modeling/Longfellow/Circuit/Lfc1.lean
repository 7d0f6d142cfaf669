/-
**The older circuit format** (`core/proto/src/writer/lfc1.rs`, `core/proto/src/reader/lfc1.rs`).

The writer expands every layer and stores each term as three folded differences of three bytes and
the index of its coefficient among the coefficients that occur. The reader turns the differences
back into deltas and deduplicates them through the approximate delta table, so the layer it
returns is compressed in a way of its own.

* `termsRead` — **the terms of a layer are read back**, whatever the cache does.
-/

import Longfellow.Circuit.Cache
import Longfellow.Circuit.Format

namespace Longfellow

open Lib

variable {ε E : Type} (f : SerializableField E)

/-! ### The writer -/

/-- A number of three bytes. -/
def serializeNum (g : Nat) : Exec ε Bytes := do
  ensure (g ≤ 2 ^ 24 - 1) "Violating small wire-label assumption: label too large for 3 bytes"
  pure (leBytes 3 g)

/-- A difference with its sign in the lowest bit, in arithmetic modulo `2^32`. -/
def foldIndex (val prevVal : UInt32) : UInt32 :=
  if prevVal ≤ val then 2 * (val - prevVal) else 2 * (prevVal - val) + 1

/-- The difference of a wire to the one of the term before. -/
def serializeIndex (val prevVal : UInt32) : Exec ε Bytes :=
  serializeNum (foldIndex val prevVal).toNat

/-- The coefficients that occur, and the index of each by its bytes. -/
structure CoefficientTable (E : Type) where
  kToIndex : List (Bytes × Nat)
  kvec : List E

/-- Add a coefficient at its first occurrence. -/
def CoefficientTable.insert (table : CoefficientTable E) (k : E) : CoefficientTable E :=
  match table.kToIndex.lookup (f.toBytes k) with
  | some _ => table
  | none => ⟨table.kToIndex ++ [(f.toBytes k, table.kvec.length)], table.kvec ++ [k]⟩

/-- Add the coefficients of a layer. -/
def CoefficientTable.addLayer (constants : List E) (table : CoefficientTable E) (layer : Layer) :
    Exec ε (CoefficientTable E) := do
  let terms ← layer.terms constants
  pure (terms.foldl (fun table term => table.insert f term.k) table)

/-- The coefficients that occur in the layers of a circuit. -/
def collectConstants (raw : RawCircuit E) : Exec ε (CoefficientTable E) :=
  raw.layers.foldlM (CoefficientTable.addLayer f raw.constants) ⟨[], []⟩

/-- One term. -/
def writeTerm (table : CoefficientTable E) (prev : Wires) (term : Term E) : Exec ε Bytes :=
  append (serializeIndex term.g prev.g) (append (serializeIndex term.h0 prev.h0)
    (append (serializeIndex term.h1 prev.h1) (do
      let kIdx ← expect (table.kToIndex.lookup (f.toBytes term.k)) "no entry found for key"
      serializeNum kIdx)))

/-- The terms of a layer, each relative to the one before. -/
def writeTerms (table : CoefficientTable E) : Wires → List (Term E) → Exec ε Bytes
  | _, [] => pure []
  | prev, term :: terms =>
    append (writeTerm f table prev term) (writeTerms table term.wires terms)

/-- One layer. -/
def writeLayerLfc1 (table : CoefficientTable E) (constants : List E) (layer : Layer) :
    Exec ε Bytes := do
  ensure (SaneLogw layer.logw) "layer logw must be sane"
  append (append (serializeNum layer.logw) (serializeNum layer.nw))
    (append (do
      let nterms ← layer.numTerms
      serializeNum nterms)
    (do
      let terms ← layer.terms constants
      writeTerms f table Wires.zero terms))

/-- A circuit in the older format. -/
def toBytesLfc1 (fieldId : FieldID) (scC : Circuit E) : Exec ε Bytes := do
  let table ← collectConstants f scC.raw
  append (pure [1]) (append (writeAll serializeNum (headerNumbers fieldId scC.raw))
    (append (serializeNum table.kvec.length) (append (pure (table.kvec.flatMap f.toBytes))
    (append (writeAll (writeLayerLfc1 f table scC.raw.constants) scC.raw.layers)
      (pure scC.id.toList)))))

/-! ### The reader -/

/-- Read a number of three bytes. -/
def readNumStream : Reader String Nat := do
  let buf ← takeBytes 3 ("Failed to read num: " ++ fillError)
  pure (leValue buf)

/-- The difference that a folded difference stands for. -/
def decodeDelta (val : UInt32) : UInt32 := if val &&& 1 ≠ 0 then -(val >>> 1) else val >>> 1

/-- The three bytes at the front of a slice. -/
def readU24 (slice : Bytes) : UInt32 := UInt32.ofNat (leValue (slice.take 3))

/-- Take a term from its twelve bytes. -/
def readTerm (numconst : Nat) (state : ApproximateDeltaTableBuilder × List UInt32)
    (chunk : Bytes) : Exec String (ApproximateDeltaTableBuilder × List UInt32) := do
  let deltaG := readU24 chunk
  let deltaH0 := readU24 (chunk.drop 3)
  let deltaH1 := readU24 (chunk.drop 6)
  let vi := readU24 (chunk.drop 9)
  check (vi.toNat < numconst) s!"Constant index out of bounds: {vi.toNat} >= {numconst}"
  let (idx, db) ← state.1.dedup
    ⟨decodeDelta deltaG, decodeDelta deltaH0, decodeDelta deltaH1, vi⟩
  pure (db, state.2 ++ [idx])

/-- Read one layer. -/
def readLayerLfc1 (reader : CircuitReader E) (numconst totalTerms : Nat) :
    Reader String (Layer × Nat) := do
  let (logw, nw) ← readDimensions readNumStream
  let nterms ← readNumStream
  demand (nterms ≤ maxTermsPerLayer)
    s!"Excessive layer term count: {nterms} (max {maxTermsPerLayer})"
  let totalTerms ← liftM (addTerms reader totalTerms nterms)
  let (db, deltaSegment) ← readRecords 12 255 ("Failed to read terms batch: " ++ fillError)
    (readTerm numconst) nterms (.new 65521, [])
  pure (Layer.newUncompressed nw logw db.deltas deltaSegment, totalTerms)

variable (sha256 : Bytes → Vector UInt8 32)

/-- Read a circuit after its version byte. -/
def fromStreamLfc1Inner (reader : CircuitReader E) (enforceCircuitId : Bool) :
    Reader String (Circuit E) := do
  let header ← readHeader readNumStream
  let numconst ← readNumConst readNumStream
  checkFieldId reader header.fid
  let constants ← readMany (readConstant reader.f) numconst
  let layers ← readLayers (readLayerLfc1 reader numconst) header.nl 0
  finishCircuit sha256 reader enforceCircuitId (header.toRaw constants layers)

/-- Read a circuit in the older format. -/
def fromBytesLfc1 (reader : CircuitReader E) (enforceCircuitId : Bool) :
    Reader String (Circuit E) := do
  let verBuf ← takeBytes 1 "Empty or incomplete stream buffer"
  demand (leValue verBuf = 1)
    s!"Unsupported LFC1 header: expected 1, got {leValue verBuf}"
  fromStreamLfc1Inner sha256 reader enforceCircuitId

variable {f sha256}

/-! ### Numbers and differences -/

theorem roundTrip_num : NumberFormat (serializeNum : Nat → Exec ε Bytes) readNumStream (2 ^ 24) := by
  intro n small
  have value : leValue (leBytes 3 n) = n := leValue_leBytes (by omega)
  refine RoundTrip.ensured (by omega) (roundTrip_pure _ ?_)
  have taken : Reads (takeBytes 3 ("Failed to read num: " ++ fillError)) (leBytes 3 n) _ :=
    reads_takeBytes (length_leBytes 3 n)
  have whole := taken.andReturn leValue
  rwa [value] at whole

theorem serializeNum_of_lt {n : Nat} (small : n < 2 ^ 24) :
    (serializeNum n : Exec ε Bytes) = .ok (leBytes 3 n) := by
  rw [serializeNum, ensure_of (by omega), ok_bind, pure_eq_ok]

theorem readU24_leBytes {n : Nat} (small : n < 2 ^ 24) (rest : Bytes) :
    readU24 (leBytes 3 n ++ rest) = UInt32.ofNat n := by
  have front : (leBytes 3 n ++ rest).take 3 = leBytes 3 n := by
    rw [List.take_append_of_le_length (by simp), List.take_of_length_le (by simp)]
  rw [readU24, front, leValue_leBytes (by omega)]

/-- Two wires whose difference fits in three bytes with its sign. -/
def Reaches (prev val : UInt32) : Prop :=
  val.toNat < prev.toNat + 2 ^ 23 ∧ prev.toNat < val.toNat + 2 ^ 23

instance (prev val : UInt32) : Decidable (Reaches prev val) :=
  inferInstanceAs (Decidable (_ ∧ _))

variable {val : UInt32} {table : CoefficientTable E} {prev : UInt32}

theorem toNat_foldIndex (near : Reaches prev val) :
    (foldIndex val prev).toNat = if prev ≤ val then 2 * (val.toNat - prev.toNat)
      else 2 * (prev.toNat - val.toNat) + 1 := by
  obtain ⟨above, below⟩ := near
  have boundVal := val.toNat_lt
  have boundPrev := prev.toNat_lt
  unfold foldIndex
  by_cases order : prev ≤ val
  · have order' : prev.toNat ≤ val.toNat := order
    rw [if_pos order, if_pos order, UInt32.toNat_mul, UInt32.toNat_sub_of_le _ _ order]
    simp only [UInt32.reduceToNat]
    omega
  · have order' : val.toNat < prev.toNat := Nat.lt_of_not_le order
    have order'' : val ≤ prev := Nat.le_of_lt order'
    rw [if_neg order, if_neg order, UInt32.toNat_add, UInt32.toNat_mul,
      UInt32.toNat_sub_of_le _ _ order'']
    simp only [UInt32.reduceToNat]
    omega

theorem decodeDelta_eq (code : UInt32) :
    decodeDelta code = if code.toNat % 2 = 0 then code >>> 1 else -(code >>> 1) := by
  have low : (code &&& 1).toNat = code.toNat % 2 := by
    rw [UInt32.toNat_and]
    exact Nat.and_one_is_mod _
  have parity : code &&& 1 ≠ 0 ↔ ¬ code.toNat % 2 = 0 := by
    rw [← low]
    exact not_congr UInt32.toNat_inj.symm
  unfold decodeDelta
  by_cases even : code.toNat % 2 = 0
  · rw [if_neg (not_not.mpr even ∘ parity.mp), if_pos even]
  · rw [if_pos (parity.mpr even), if_neg even]

/-- **A folded difference is decoded to the difference**, modulo `2^32`. -/
theorem decodeDelta_foldIndex (near : Reaches prev val) :
    prev + decodeDelta (foldIndex val prev) = val := by
  have code := toNat_foldIndex near
  obtain ⟨above, below⟩ := near
  have boundVal := val.toNat_lt
  have boundPrev := prev.toNat_lt
  have halved : (foldIndex val prev >>> 1).toNat = (foldIndex val prev).toNat / 2 := by
    rw [UInt32.toNat_shiftRight]
    simp [Nat.shiftRight_eq_div_pow]
  rw [decodeDelta_eq]
  apply UInt32.toNat_inj.mp
  by_cases order : prev ≤ val
  · have order' : prev.toNat ≤ val.toNat := order
    rw [if_pos order] at code
    rw [if_pos (by omega), UInt32.toNat_add, halved]
    omega
  · have order' : val.toNat < prev.toNat := Nat.lt_of_not_le order
    rw [if_neg order] at code
    rw [if_neg (by omega), UInt32.toNat_add, UInt32.toNat_neg, halved]
    simp only [UInt32.size]
    omega

theorem foldIndex_lt (near : Reaches prev val) :
    (foldIndex val prev).toNat < 2 ^ 24 := by
  have code := toNat_foldIndex near
  obtain ⟨above, below⟩ := near
  split at code <;> omega

/-! ### The table of coefficients -/

namespace CoefficientTable

/-- Every index of the table is that of a coefficient with the bytes looked up. -/
def Sound (f : SerializableField E) (table : CoefficientTable E) : Prop :=
  ∀ {key i}, table.kToIndex.lookup key = some i → ∃ k, table.kvec[i]? = some k ∧ f.toBytes k = key

/-- A coefficient has an index. -/
def Covers (f : SerializableField E) (table : CoefficientTable E) (k : E) : Prop :=
  ∃ i, table.kToIndex.lookup (f.toBytes k) = some i

theorem insert_spec (sound : table.Sound f) (k : E) :
    (table.insert f k).Sound f ∧ (table.insert f k).Covers f k ∧
      ∀ other, table.Covers f other → (table.insert f k).Covers f other := by
  unfold insert
  cases found : table.kToIndex.lookup (f.toBytes k) with
  | some i => exact ⟨sound, ⟨i, found⟩, fun _ covered => covered⟩
  | none =>
    refine ⟨?_, ⟨table.kvec.length, ?_⟩, ?_⟩
    · intro key i looked
      simp only [List.lookup_append] at looked
      cases old : table.kToIndex.lookup key with
      | some j =>
        rw [old, Option.some_or, Option.some.injEq] at looked
        obtain ⟨k', stored, bytes⟩ := sound (looked ▸ old)
        exact ⟨k', getElem?_of_prefixed (List.prefix_append ..) stored, bytes⟩
      | none =>
        rw [old, Option.none_or, List.lookup_cons, List.lookup_nil] at looked
        by_cases same : key = f.toBytes k
        · rw [same, beq_self_eq_true] at looked
          obtain rfl := Option.some.inj looked
          exact ⟨k, List.getElem?_concat_length, same.symm⟩
        · rw [beq_false_of_ne same] at looked
          cases looked
    · simp [List.lookup_append, found]
    · rintro other ⟨i, looked⟩
      exact ⟨i, by simp [List.lookup_append, looked]⟩

theorem foldl_insert_spec (sound : table.Sound f)
    (terms : List (Term E)) :
    let table' := terms.foldl (fun table term => table.insert f term.k) table
    table'.Sound f ∧ (∀ term ∈ terms, table'.Covers f term.k) ∧
      ∀ other, table.Covers f other → table'.Covers f other := by
  induction terms generalizing table with
  | nil => exact ⟨sound, by simp, fun _ covered => covered⟩
  | cons term terms ih =>
    obtain ⟨soundHead, coversHead, keepsHead⟩ := insert_spec sound term.k
    obtain ⟨soundTail, coversTail, keepsTail⟩ := ih soundHead
    refine ⟨soundTail, ?_, fun other covered => keepsTail other (keepsHead other covered)⟩
    intro later member
    rcases List.mem_cons.mp member with rfl | member
    · exact keepsTail _ coversHead
    · exact coversTail later member

end CoefficientTable

theorem collectConstants_spec (f : SerializableField E) {raw : RawCircuit E}
    (expands : ∀ layer ∈ raw.layers, ∃ terms, (layer.terms raw.constants : Exec ε _) = .ok terms) :
    ∃ table, (collectConstants f raw : Exec ε _) = .ok table ∧ table.Sound f ∧
      ∀ layer ∈ raw.layers, ∀ {terms}, (layer.terms raw.constants : Exec ε _) = .ok terms →
        ∀ term ∈ terms, table.Covers f term.k := by
  refine foldlM_returns (fun (done : List Layer) (table : CoefficientTable E) =>
    table.Sound f ∧ ∀ layer ∈ done, ∀ {terms}, (layer.terms raw.constants : Exec ε _) = .ok terms →
      ∀ term ∈ terms, table.Covers f term.k)
    ⟨fun looked => absurd looked (by simp), fun _ member => by cases member⟩ ?_
  intro done layer table step ⟨sound, covers⟩
  have member : layer ∈ raw.layers := step.subset (by simp)
  obtain ⟨terms, expanded⟩ := expands layer member
  obtain ⟨soundNext, coversNext, keeps⟩ := CoefficientTable.foldl_insert_spec sound terms
  refine ⟨_, by rw [CoefficientTable.addLayer, expanded, ok_bind, pure_eq_ok], soundNext, ?_⟩
  intro other isDone terms' expanded' term isTerm
  rcases List.mem_append.mp isDone with old | new
  · exact keeps _ (covers other old expanded' term isTerm)
  · obtain rfl := List.mem_singleton.mp new
    obtain rfl := Except.ok.inj (expanded.symm.trans expanded')
    exact coversNext term isTerm

/-! ### The terms of a layer -/

/-- Each term is within reach of the one before. -/
def Near : Wires → List (Term E) → Prop
  | _, [] => True
  | prev, term :: terms =>
    (Reaches prev.g term.g ∧ Reaches prev.h0 term.h0 ∧ Reaches prev.h1 term.h1) ∧
      Near term.wires terms

/-- The twelve bytes of a term. -/
def termRecord (prev : Wires) (term : Term E) (kIdx : Nat) : Bytes :=
  leBytes 3 (foldIndex term.g prev.g).toNat ++ (leBytes 3 (foldIndex term.h0 prev.h0).toNat ++
    (leBytes 3 (foldIndex term.h1 prev.h1).toNat ++ leBytes 3 kIdx))

/-- The delta of a term as the reader decodes it. -/
def decodedDelta (prev : Wires) (term : Term E) (kIdx : Nat) : TermDelta :=
  ⟨decodeDelta (foldIndex term.g prev.g), decodeDelta (foldIndex term.h0 prev.h0),
    decodeDelta (foldIndex term.h1 prev.h1), UInt32.ofNat kIdx⟩

variable {prev : Wires} {term : Term E}

section

variable (near : Reaches prev.g term.g ∧ Reaches prev.h0 term.h0 ∧ Reaches prev.h1 term.h1)
include near

theorem writeTerm_eq {kIdx : Nat} (found : table.kToIndex.lookup (f.toBytes term.k) = some kIdx)
    (small : kIdx < 2 ^ 24) :
    (writeTerm f table prev term : Exec ε Bytes) = .ok (termRecord prev term kIdx) := by
  refine append_ok (serializeNum_of_lt (foldIndex_lt near.1)) ?_
  refine append_ok (serializeNum_of_lt (foldIndex_lt near.2.1)) ?_
  refine append_ok (serializeNum_of_lt (foldIndex_lt near.2.2)) ?_
  rw [found]
  exact serializeNum_of_lt small

theorem readTerm_record {kIdx numconst : Nat} (small : kIdx < 2 ^ 24) (inside : kIdx < numconst)
    (state : ApproximateDeltaTableBuilder × List UInt32) :
    readTerm numconst state (termRecord prev term kIdx) =
      state.1.dedup (decodedDelta prev term kIdx) >>= fun (idx, db) =>
        pure (db, state.2 ++ [idx]) := by
  have drop3 : ∀ (a : Nat) (rest : Bytes), (leBytes 3 a ++ rest).drop 3 = rest := fun a rest => by
    rw [List.drop_append_of_le_length (by simp), List.drop_of_length_le (by simp), List.nil_append]
  have drop6 : ∀ bytes : Bytes, bytes.drop 6 = (bytes.drop 3).drop 3 := fun bytes => by
    rw [List.drop_drop]
  have drop9 : ∀ bytes : Bytes, bytes.drop 9 = ((bytes.drop 3).drop 3).drop 3 := fun bytes => by
    rw [List.drop_drop, List.drop_drop]
  have index : readU24 (leBytes 3 kIdx) = UInt32.ofNat kIdx := by
    have := readU24_leBytes small []
    rwa [List.append_nil] at this
  have value : (UInt32.ofNat kIdx).toNat = kIdx :=
    UInt32.toNat_ofNat_of_lt' (small.trans (by decide))
  unfold readTerm termRecord
  simp only [drop6, drop9, drop3, readU24_leBytes (foldIndex_lt near.1),
    readU24_leBytes (foldIndex_lt near.2.1), readU24_leBytes (foldIndex_lt near.2.2), index,
    value, check_of inside, ok_bind, UInt32.ofNat_toNat]
  rfl

end

theorem length_termRecord (prev : Wires) (term : Term E) (kIdx : Nat) :
    (termRecord prev term kIdx).length = 12 := by
  simp [termRecord]

theorem step_decodedDelta
    (near : Reaches prev.g term.g ∧ Reaches prev.h0 term.h0 ∧ Reaches prev.h1 term.h1) (kIdx : Nat) :
    prev.step (decodedDelta prev term kIdx) = term.wires := by
  unfold Wires.step decodedDelta Term.wires
  rw [decodeDelta_foldIndex near.1, decodeDelta_foldIndex near.2.1, decodeDelta_foldIndex near.2.2]

/-- What the reader makes of the terms of a layer, from a delta table `db` on: the records that
were written, the table and the segment after them, and the deltas that the segment selects. -/
structure TermsRead (table : CoefficientTable E) (prev : Wires) (terms : List (Term E))
    (db db' : ApproximateDeltaTableBuilder) (records : List Bytes) (segment : List UInt32)
    (deltas : List TermDelta) : Prop where
  count : records.length = terms.length
  sized : ∀ record ∈ records, record.length = 12
  read : ∀ before, records.foldlM (readTerm table.kvec.length) (db, before) =
    .ok (db', before ++ segment)
  grown : db.deltas <+: db'.deltas
  selects : List.Forall₂ (fun index d => db'.deltas[index.toNat]? = some d) segment deltas
  sums : (accumulate table.kvec prev deltas : Exec String _) = .ok terms

variable {terms : List (Term E)} {reader : CircuitReader E}

/-- **The terms of a layer are read back**: the deltas that the reader selects sum up to them. -/
theorem termsRead (lawful : LawfulField f) (sound : table.Sound f)
    (few : table.kvec.length ≤ 2 ^ 24) (covers : ∀ term ∈ terms, table.Covers f term.k)
    (near : Near prev terms) {db : ApproximateDeltaTableBuilder} (valid : db.Sound)
    (fits : db.deltas.length + terms.length ≤ 2 ^ 32) :
    ∃ records db' segment deltas, (writeTerms f table prev terms : Exec ε _) = .ok records.flatten ∧
      TermsRead table prev terms db db' records segment deltas := by
  -- Induction over the terms: each is one record, one lookup and one delta.
  induction terms generalizing prev db with
  | nil =>
    refine ⟨[], db, [], [], rfl, ⟨rfl, by simp, fun before => ?_, List.prefix_rfl, .nil, rfl⟩⟩
    rw [List.append_nil]
    rfl
  | cons term terms ih =>
    obtain ⟨here, later⟩ := near
    obtain ⟨kIdx, found⟩ := covers term (List.mem_cons_self ..)
    obtain ⟨k, stored, sameBytes⟩ := sound found
    have isK : k = term.k := by
      have parses := lawful.parse_toBytes k
      rw [sameBytes, lawful.parse_toBytes term.k] at parses
      exact (Except.ok.inj parses).symm
    obtain ⟨inside, _⟩ := List.getElem?_eq_some_iff.mp stored
    have small : kIdx < 2 ^ 24 := by omega
    rw [List.length_cons] at fits
    obtain ⟨index, next, looked, validNext, grownNext, points, growth⟩ :=
      ApproximateDeltaTableBuilder.dedup_spec (ε := String) valid (by omega)
        (decodedDelta prev term kIdx)
    obtain ⟨records, db', segment, deltas, wrote, rest⟩ :=
      ih (fun other member => covers other (List.mem_cons_of_mem _ member)) later validNext
        (by omega)
    refine ⟨termRecord prev term kIdx :: records, db', index :: segment,
      decodedDelta prev term kIdx :: deltas,
      append_ok (writeTerm_eq here found small) wrote, ⟨?_, ?_, ?_, ?_, ?_, ?_⟩⟩
    · rw [List.length_cons, rest.count, List.length_cons]
    · intro record member
      rcases List.mem_cons.mp member with rfl | member
      · exact length_termRecord prev term kIdx
      · exact rest.sized record member
    · intro before
      rw [List.foldlM_cons, readTerm_record here small inside, looked]
      refine (rest.read (before ++ [index])).trans ?_
      rw [List.append_assoc, List.singleton_append]
    · exact grownNext.trans rest.grown
    · exact .cons (getElem?_of_prefixed rest.grown points) rest.selects
    · have coefficient : (getAt table.kvec (decodedDelta prev term kIdx).kIndex.toNat :
          Exec String E) = .ok term.k := by
        rw [getAt_eq_ok, ← isK, ← stored]
        congr 1
        exact UInt32.toNat_ofNat_of_lt' (small.trans (by decide))
      rw [accumulate, step_decodedDelta here, coefficient, ok_bind, rest.sums, ok_bind]
      rfl

/-! ### Layers and circuits -/

/-- The limits on a layer. -/
structure Lfc1LayerLimits (constants : List E) (layer : Layer) (terms : List (Term E)) : Prop where
  logw : SaneLogw layer.logw
  nw : layer.nw ≤ maxLayerInputs
  expands : (layer.terms constants : Exec String _) = .ok terms
  count : terms.length < 2 ^ 24
  near : Near Wires.zero terms

/-- The limits that the writer and the reader enforce on a circuit. -/
structure Lfc1Limits (reader : CircuitReader E) (raw : RawCircuit E) : Prop where
  header : HeaderLimits raw
  constants : ∀ {table}, (collectConstants reader.f raw : Exec String _) = .ok table →
    table.kvec.length ≤ maxConstants
  layers : ∀ layer ∈ raw.layers, ∃ terms, Lfc1LayerLimits raw.constants layer terms
  total : (raw.layers.map Layer.size).sum ≤ reader.maxTotalTerms

theorem deltaIndices_newUncompressed (nw logw : Nat) (table : List TermDelta)
    (segment : List UInt32) :
    ((Layer.newUncompressed nw logw table segment).deltaIndices : Exec ε _) = .ok segment := by
  show Except.ok [segment].flatten = _
  rw [List.flatten_singleton]

theorem terms_newUncompressed (nw logw : Nat) {table : List TermDelta} {segment : List UInt32}
    {deltas : List TermDelta} {constants : List E}
    (selects : List.Forall₂ (fun index d => table[index.toNat]? = some d) segment deltas)
    (sums : (accumulate constants Wires.zero deltas : Exec String _) = .ok terms) :
    ((Layer.newUncompressed nw logw table segment).terms constants : Exec String _) = .ok terms := by
  have looked : (segment.mapM fun d => getAt table d.toNat : Exec String _) = .ok deltas :=
    mapM_of_forall₂ (selects.imp fun _ _ found => getAt_eq_ok.mpr found)
  rw [Layer.terms, Layer.deltaSequence, deltaIndices_newUncompressed, ok_bind]
  show ((segment.mapM fun d => getAt table d.toNat) >>= _) = _
  rw [looked, ok_bind, sums]

/-- **A layer is read back** with the same dimensions and the same terms. -/
theorem roundTrip_layerLfc1 (lawful : LawfulField reader.f)
    (sound : table.Sound reader.f) (few : table.kvec.length ≤ maxConstants) {constants : List E}
    {layer : Layer} (limits : Lfc1LayerLimits constants layer terms)
    (covers : ∀ term ∈ terms, table.Covers reader.f term.k) {total : Nat}
    (machine : reader.maxTotalTerms < 2 ^ 64) (within : total + layer.size ≤ reader.maxTotalTerms) :
    ∃ layer', SameLayer constants table.kvec layer layer' ∧
      RoundTrip (writeLayerLfc1 reader.f table constants layer : Exec String Bytes)
        (readLayerLfc1 reader table.kvec.length total) (layer', total + layer.size) := by
  obtain ⟨announced, size⟩ := Layer.numTerms_of_terms limits.expands
  have count := limits.count
  have valid := ApproximateDeltaTableBuilder.sound_new 65521 (by decide)
  have fewer : table.kvec.length ≤ 2 ^ 24 := few.trans (by decide)
  obtain ⟨records, db, segment, deltas, wrote, read⟩ := termsRead (ε := String) lawful sound fewer
    covers limits.near valid (by
      rw [ApproximateDeltaTableBuilder.new, List.length_nil]
      omega)
  have expanded := terms_newUncompressed layer.nw layer.logw read.selects read.sums
  refine ⟨Layer.newUncompressed layer.nw layer.logw db.deltas segment,
    ⟨rfl, rfl, terms, limits.expands, expanded, announced, (Layer.numTerms_of_terms expanded).1⟩,
    ?_⟩
  refine RoundTrip.ensured limits.logw ?_
  refine (roundTrip_dimensions roundTrip_num le_rfl limits.logw limits.nw).append ?_
  rw [announced, ok_bind, limits.expands, ok_bind, size]
  refine (roundTrip_num _ count).append (RoundTrip.demanded ?_ ?_)
  · unfold maxTermsPerLayer
    omega
  rw [size] at within
  refine RoundTrip.lifted (addTerms_of_le within machine) ?_
  refine RoundTrip.andReturn (g := fun state => (Layer.newUncompressed layer.nw layer.logw
    state.1.deltas state.2, total + terms.length)) (a := (db, segment)) ⟨_, wrote, ?_⟩
  rw [← read.count]
  exact reads_records read.sized (read.read [])

/-- **A circuit is read back** after its version byte, with the same header, the same terms in
every layer and the same identifier. -/
theorem reads_lfc1Inner (lawful : LawfulField reader.f)
    (machine : reader.maxTotalTerms < 2 ^ 64) {circuit : Circuit E}
    (limits : Lfc1Limits reader circuit.raw) {enforce : Bool} (verified : enforce = true →
      (computeId sha256 reader.f circuit.raw : Exec String _) = .ok circuit.id) :
    ∃ bytes raw', (toBytesLfc1 reader.f reader.fieldId circuit : Exec String _) = .ok (1 :: bytes) ∧
      SameCircuit circuit.raw raw' ∧
      Reads (fromStreamLfc1Inner sha256 reader enforce) bytes ⟨raw', circuit.id⟩ := by
  have expands : ∀ layer ∈ circuit.raw.layers,
      ∃ terms, (layer.terms circuit.raw.constants : Exec String _) = .ok terms := by
    intro layer member
    obtain ⟨terms, layerLimits⟩ := limits.layers layer member
    exact ⟨terms, layerLimits.expands⟩
  obtain ⟨table, collected, sound, covers⟩ := collectConstants_spec reader.f expands
  have few := limits.constants collected
  have each : ∀ layer ∈ circuit.raw.layers, ∀ total, total + layer.size ≤ reader.maxTotalTerms →
      ∃ layer', SameLayer circuit.raw.constants table.kvec layer layer' ∧
        RoundTrip (writeLayerLfc1 reader.f table circuit.raw.constants layer : Exec String Bytes)
          (readLayerLfc1 reader table.kvec.length total) (layer', total + layer.size) := by
    intro layer member total within
    obtain ⟨terms, layerLimits⟩ := limits.layers layer member
    exact roundTrip_layerLfc1 lawful sound few layerLimits
      (covers layer member layerLimits.expands) machine within
  obtain ⟨layers, same, readBack⟩ := roundTrip_layers each 0 (by
    rw [Nat.zero_add]
    exact limits.total)
  set raw' := (headerOf reader.fieldId circuit.raw).toRaw table.kvec layers with raw'_eq
  have sameCircuit : SameCircuit circuit.raw raw' := ⟨rfl, rfl, rfl, rfl, rfl, same⟩
  have limits' : HeaderLimits raw' := by
    have header := limits.header
    refine ⟨header.noutput, header.logv, header.npublicInput, header.ninput,
      header.subfieldBoundary, ?_⟩
    exact same.length_eq ▸ header.layers
  have verified' : enforce = true →
      (computeId sha256 reader.f raw' : Exec String _) = .ok circuit.id := fun on =>
    (computeId_congr sameCircuit).trans (verified on)
  have whole : RoundTrip (append (writeAll serializeNum (headerNumbers reader.fieldId circuit.raw))
      (append (serializeNum table.kvec.length) (append (pure (table.kvec.flatMap reader.f.toBytes))
      (append (writeAll (writeLayerLfc1 reader.f table circuit.raw.constants) circuit.raw.layers)
        (pure circuit.id.toList)))) : Exec String Bytes)
      (fromStreamLfc1Inner sha256 reader enforce) ⟨raw', circuit.id⟩ := by
    refine (roundTrip_header roundTrip_num le_rfl _ limits.header).append ?_
    refine (roundTrip_numConst roundTrip_num le_rfl few).append ?_
    refine RoundTrip.demanded rfl ?_
    refine (roundTrip_pure _ (reads_constants lawful table.kvec)).append ?_
    refine readBack.append ?_
    exact roundTrip_pure _ (reads_finish limits' few verified')
  obtain ⟨bytes, wrote, read⟩ := whole
  refine ⟨bytes, raw', ?_, sameCircuit, read⟩
  rw [toBytesLfc1, collected, ok_bind]
  exact append_ok rfl wrote

end Longfellow
