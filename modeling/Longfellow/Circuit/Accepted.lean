/-
**What the circuit readers accept** (`core/proto/src/reader/`).

On every byte string the readers return a circuit or an error, with one exception: the logarithm of
the number of outputs is taken before anything checks that there are outputs, so a header that
announces none ends in a panic. What is accepted is within the limits of the readers, and every
index into a table is in range; the wires of the terms are not checked.

* `readers_total_iff` — **the readers are total exactly on the bytes that announce outputs**;
* `accepted_checked` — **a circuit that is accepted** expands, and evaluates without a panic when its
  wires are in range.
-/

import Longfellow.Circuit.Lfc2
import Longfellow.Sumcheck.Values
import Mathlib.Data.ZMod.Basic

namespace Longfellow

open Lib

variable {ε E : Type}

/-! ### What the readers check -/

/-- The checks of a header. -/
structure Header.Checked (header : Header) : Prop where
  nv : header.nv ≤ maxWires
  logv : (ceilLog2 header.nv : Exec String Nat) = .ok header.logv
  subfieldBoundary : header.subfieldBoundary ≤ maxWires
  ninputs : header.ninputs ≤ maxWires
  nl : header.nl ≤ maxLayers

/-- The checks of a layer. -/
structure Layer.Checked (nconstants : Nat) (layer : Layer) : Prop where
  logw : SaneLogw layer.logw
  nw : layer.nw ≤ maxLayerInputs
  inRange : layer.InRange nconstants

/-- The checks of a circuit. -/
structure RawCircuit.Checked (raw : RawCircuit E) : Prop where
  limits : HeaderLimits raw
  constants : raw.constants.length ≤ maxConstants
  layers : ∀ layer ∈ raw.layers, layer.Checked raw.constants.length

/-! ### The header -/

theorem safe_ceilLog2 {n : Nat} (positive : n ≠ 0) :
    Safe (ceilLog2 n : Exec ε Nat) fun logn => (ceilLog2 n : Exec String Nat) = .ok logn := by
  match n with
  | 0 => exact absurd rfl positive
  | 1 => exact safe_pure rfl
  | n + 2 => exact safe_pure rfl

section Header

variable {readNum : Reader String Nat}

theorem safe_header (numbers : SafeReader readNum fun _ => True) (bytes : Bytes)
    (outputs : ∀ {fid middle rest}, readNum.run bytes = .ok (fid, middle) →
      readNum.run middle ≠ .ok (0, rest)) :
    Safe ((readHeader readNum).run bytes) fun result => result.1.Checked := by
  rw [readHeader, StateT.run_bind]
  refine (numbers bytes).remember.bind fun (fid, middle) ⟨first, _⟩ => ?_
  rw [StateT.run_bind]
  refine (numbers middle).remember.bind fun (nv, rest) ⟨second, _⟩ => ?_
  have positive : nv ≠ 0 := fun zero => outputs first (zero ▸ second)
  refine SafeReader.bind (safeReader_demand _ _) (fun _ fewOutputs => ?_) rest
  refine (safeReader_lift (safe_ceilLog2 positive)).bind fun logv logv_eq => ?_
  refine (safeReader_demand _ _).bind fun _ _ => ?_
  refine numbers.bind fun nc _ => (safeReader_demand _ _).bind fun _ _ => ?_
  refine numbers.bind fun npubIn _ => (safeReader_demand _ _).bind fun _ _ => ?_
  refine numbers.bind fun subfieldBoundary _ => (safeReader_demand _ _).bind fun _ boundary => ?_
  refine numbers.bind fun ninputs _ => (safeReader_demand _ _).bind fun _ fewInputs => ?_
  refine numbers.bind fun nl _ => (safeReader_demand _ _).bind fun _ fewLayers => ?_
  exact safeReader_pure ⟨fewOutputs, logv_eq, boundary, fewInputs, fewLayers⟩

theorem header_panics {bytes middle rest : Bytes} {fid : Nat}
    (first : readNum.run bytes = .ok (fid, middle)) (second : readNum.run middle = .ok (0, rest)) :
    (readHeader readNum).run bytes = abort "log2 of zero is undefined" := by
  rw [readHeader, StateT.run_bind, first, ok_bind, StateT.run_bind, second, ok_bind]
  rfl

theorem safeReader_numConst (numbers : SafeReader readNum fun _ => True) :
    SafeReader (readNumConst readNum) (· ≤ maxConstants) :=
  numbers.bind fun numconst _ =>
    (safeReader_demand (numconst ≤ maxConstants) _).bind fun _ few => safeReader_pure few

theorem safeReader_dimensions (numbers : SafeReader readNum fun _ => True) :
    SafeReader (readDimensions readNum) fun dims => SaneLogw dims.1 ∧ dims.2 ≤ maxLayerInputs := by
  refine numbers.bind fun logw _ => (safeReader_demand (SaneLogw logw) _).bind fun _ sane => ?_
  refine numbers.bind fun nw _ => (safeReader_demand _ _).bind fun _ few => ?_
  exact safeReader_pure ⟨sane, few⟩

end Header

/-! ### Constants and layers -/

theorem safeReader_constant (f : SerializableField E) :
    SafeReader (readConstant f) fun _ => True := by
  refine (safeReader_takeBytes _ _).bind fun chunk _ => ?_
  split
  · exact safeReader_pure trivial
  · exact safeReader_lift (safe_raise _ _)

theorem safe_addTerms (reader : CircuitReader E) (totalTerms nterms : Nat) :
    Safe (addTerms reader totalTerms nterms) fun _ => True :=
  (safe_check _ _).bind fun _ _ => safe_pure trivial

/-- **The layers of a circuit.** -/
theorem safeReader_layers {readLayer : Nat → Reader String (Layer × Nat)} {nconstants : Nat}
    (each : ∀ totalTerms, SafeReader (readLayer totalTerms) fun result =>
      result.1.Checked nconstants) (count totalTerms : Nat) :
    SafeReader (readLayers readLayer count totalTerms) fun layers =>
      layers.length = count ∧ ∀ layer ∈ layers, layer.Checked nconstants := by
  induction count generalizing totalTerms with
  | zero => exact safeReader_pure ⟨rfl, by simp⟩
  | succ count ih =>
    refine (each totalTerms).bind fun (layer, totalTerms) checked => ?_
    refine (ih totalTerms).bind fun layers others => safeReader_pure ?_
    exact ⟨by rw [List.length_cons, others.1], List.forall_mem_cons.mpr ⟨checked, others.2⟩⟩

theorem safeReader_numStream : SafeReader readNumStream (· < 2 ^ 24) := by
  refine (safeReader_takeBytes 3 _).bind fun buf size => safeReader_pure ?_
  have bound := leValue_lt buf
  rwa [size] at bound

/-- The state of the reader of the older format after `count` terms of a layer. -/
structure TableRead (numconst count : Nat)
    (state : ApproximateDeltaTableBuilder × List UInt32) : Prop where
  sound : state.1.Sound
  size : state.1.deltas.length ≤ count
  constants : ∀ d ∈ state.1.deltas, d.kIndex.toNat < numconst
  indices : ∀ d ∈ state.2, d.toNat < state.1.deltas.length

theorem safe_readTerm {numconst total : Nat} (small : total ≤ 2 ^ 24) {count : Nat}
    {state : ApproximateDeltaTableBuilder × List UInt32} (chunk : Bytes) (below : count < total)
    (done : TableRead numconst count state) :
    Safe (readTerm numconst state chunk) (TableRead numconst (count + 1)) := by
  refine (safe_check _ _).bind fun _ inside => ?_
  have fits : state.1.deltas.length < 2 ^ 32 := by
    have := done.size
    omega
  set d : TermDelta := ⟨decodeDelta (readU24 chunk), decodeDelta (readU24 (chunk.drop 3)),
    decodeDelta (readU24 (chunk.drop 6)), readU24 (chunk.drop 9)⟩ with d_eq
  obtain ⟨index, db, deduped, sound, grown, found, growth⟩ :=
    ApproximateDeltaTableBuilder.dedup_spec (ε := String) done.sound fits d
  have larger := grown.length_le
  have size : db.deltas.length ≤ count + 1 := by
    have := done.size
    omega
  refine safe_ok (by rw [deduped]; rfl) ⟨sound, size, ?_, ?_⟩
  · -- A lookup stores the delta of the term or nothing.
    intro other member
    rcases ApproximateDeltaTableBuilder.mem_of_dedup deduped member with old | rfl
    · exact done.constants other old
    · exact inside
  · intro i member
    rcases List.mem_append.mp member with old | new
    · exact (done.indices i old).trans_le larger
    · obtain rfl := List.mem_singleton.mp new
      exact (List.getElem?_eq_some_iff.mp found).1

/-- **A layer of the older format.** -/
theorem safeReader_layerLfc1 (reader : CircuitReader E) (numconst totalTerms : Nat) :
    SafeReader (readLayerLfc1 reader numconst totalTerms) fun result =>
      result.1.Checked numconst := by
  refine (safeReader_dimensions (safeReader_numStream.mono fun _ _ => trivial)).bind
    fun (logw, nw) ⟨sane, few⟩ => ?_
  refine safeReader_numStream.bind fun nterms small => ?_
  refine (safeReader_demand _ _).bind fun _ _ => ?_
  refine (safeReader_lift (safe_addTerms reader totalTerms nterms)).bind fun totalTerms _ => ?_
  have start : TableRead numconst 0 (.new 65521, []) :=
    ⟨ApproximateDeltaTableBuilder.sound_new 65521 (by decide), le_rfl,
      fun d member => absurd member List.not_mem_nil, by simp⟩
  refine (safeReader_records (TableRead numconst)
    (fun count state chunk below done => safe_readTerm (Nat.le_of_lt small) chunk below done) start
    (Nat.zero_add nterms)).bind fun (db, deltaSegment) done => safeReader_pure ?_
  refine ⟨sane, few, ⟨?_, ?_, done.constants⟩⟩
  · simp [Layer.newUncompressed]
  · intro segment member
    obtain rfl := List.mem_singleton.mp member
    exact done.indices

theorem safeReader_word : SafeReader readWord fun _ => True :=
  safeReader_uleb.bind fun _ _ => safeReader_pure trivial

theorem safeReader_index (bound : Nat) (error : UInt32 → String) :
    SafeReader (readIndex bound error) fun index => index.toNat < bound :=
  safeReader_word.bind fun index _ =>
    (safeReader_demand (index.toNat < bound) _).bind fun _ inside => safeReader_pure inside

theorem safeReader_counted {α : Type} {limit : Nat} {error : Nat → String} {item : Reader String α}
    {post : α → Prop} (each : SafeReader item post) :
    SafeReader (readCounted limit error item) fun items => ∀ a ∈ items, post a := by
  refine safeReader_uleb.bind fun count _ => (safeReader_demand _ _).bind fun _ _ => ?_
  exact (safeReader_many each count).mono fun _ all => all.2

theorem safeReader_delta (nconstants : Nat) :
    SafeReader (readDelta nconstants) fun d => d.kIndex.toNat < nconstants :=
  safeReader_word.bind fun _ _ => safeReader_word.bind fun _ _ => safeReader_word.bind fun _ _ =>
    (safeReader_index nconstants _).bind fun _ inside => safeReader_pure inside

/-- **A layer of the compressed format.** -/
theorem safeReader_layerLfc2 (reader : CircuitReader E) (nconstants totalTerms : Nat) :
    SafeReader (readLayerLfc2 reader nconstants totalTerms) fun result =>
      result.1.Checked nconstants := by
  refine (safeReader_dimensions safeReader_uleb).bind fun (logw, nw) ⟨sane, few⟩ => ?_
  refine (safeReader_counted (safeReader_delta nconstants)).bind fun deltas constants => ?_
  refine (safeReader_counted (safeReader_counted (safeReader_index deltas.length _))).bind
    fun deltaSegments segments => ?_
  refine (safeReader_counted (safeReader_index deltaSegments.length _)).bind
    fun deltaTokens tokens => ?_
  have counted : Safe (deltaTokens.foldlM (fun nterms tok => do
      let segment ← getAt deltaSegments tok.toNat
      pure (saturatingAdd nterms segment.length)) 0 : Exec String Nat) fun _ => True :=
    safe_foldlM _ trivial fun nterms tok member _ =>
      (safe_getAt (tokens tok member)).bind fun _ _ => safe_pure trivial
  refine (safeReader_lift counted).bind fun layerNterms _ => ?_
  refine (safeReader_demand _ _).bind fun _ _ => ?_
  refine (safeReader_lift (safe_addTerms reader totalTerms layerNterms)).bind
    fun totalTerms _ => ?_
  exact safeReader_pure ⟨sane, few, ⟨tokens, segments, constants⟩⟩

/-! ### Circuits -/

variable {sha256 : Bytes → Vector UInt8 32}

theorem safe_computeId (f : SerializableField E) {raw : RawCircuit E}
    (layers : ∀ layer ∈ raw.layers, layer.Checked raw.constants.length) :
    Safe (computeId sha256 f raw : Exec ε _) fun _ => True := by
  have each : ∀ layer ∈ raw.layers,
      Safe (layerBytes f raw.constants layer : Exec ε _) fun _ => True := by
    intro layer member
    obtain ⟨terms, expands, count⟩ := Layer.terms_returns (ε := ε) (layers layer member).inRange
    rw [layerBytes, count, ok_bind, expands, ok_bind]
    exact safe_pure trivial
  exact (safe_mapM each).bind fun _ _ => safe_pure trivial

theorem safe_validateRawCircuit (raw : RawCircuit E) :
    Safe (validateRawCircuit raw) fun _ => raw.npublicInput ≤ raw.ninput := by
  refine (safe_check _ _).bind fun _ _ => (safe_check _ _).bind fun _ _ => ?_
  refine (safe_check _ _).bind fun _ _ => (safe_check _ _).bind fun _ ordered => ?_
  exact (safe_check _ _).bind fun _ _ => (safe_check _ _).mono fun _ _ => ordered

theorem safeReader_finish (reader : CircuitReader E) (enforce : Bool) {header : Header}
    (checked : header.Checked) {constants : List E} (few : constants.length ≤ maxConstants)
    {layers : List Layer} (count : layers.length = header.nl)
    (each : ∀ layer ∈ layers, layer.Checked constants.length) :
    SafeReader (finishCircuit sha256 reader enforce (header.toRaw constants layers)) fun circuit =>
      circuit.raw.Checked := by
  refine (safeReader_takeVector 32 _).bind fun id _ => ?_
  refine (safeReader_lift (safe_validateRawCircuit _)).bind fun _ ordered => ?_
  have all : (header.toRaw constants layers).Checked :=
    ⟨⟨checked.nv, checked.logv, ordered, checked.ninputs, checked.subfieldBoundary,
      count.trans_le checked.nl⟩, few, each⟩
  cases enforce with
  | false => exact safeReader_pure all
  | true =>
    refine (safeReader_lift (safe_computeId reader.f each)).bind fun _ _ => ?_
    exact (safeReader_demand _ _).bind fun _ _ => safeReader_pure all

theorem safeReader_checkFieldId (reader : CircuitReader E) (fid : Nat) :
    SafeReader (checkFieldId reader fid) fun _ => True :=
  (safeReader_demand _ _).mono fun _ _ => trivial

/-! ### Headers that announce no outputs -/

/-- After the marker of the older format: a field, and zero outputs. -/
def NoOutputsLfc1 (bytes : Bytes) : Prop :=
  ∃ fid rest, fid.length = 3 ∧ bytes = fid ++ ([0, 0, 0] ++ rest)

/-- After the marker of the compressed format: a field, and zero outputs in any code. -/
def NoOutputsLfc2 (bytes : Bytes) : Prop :=
  ∃ fid zero rest, UlebCode 4 fid ∧ UlebCode 4 zero ∧ (∀ byte ∈ zero, byte.toNat % 128 = 0) ∧
    bytes = fid ++ (zero ++ rest)

/-- A circuit of either format whose header announces no outputs. -/
def NoOutputs (buf : Bytes) : Prop :=
  (∃ rest, buf = 1 :: rest ∧ NoOutputsLfc1 rest) ∨
    ∃ rest, buf = magicLfc2 ++ rest ∧ NoOutputsLfc2 rest

theorem readNumStream_eq_ok {bytes rest : Bytes} {n : Nat} :
    readNumStream.run bytes = .ok (n, rest) ↔
      ∃ chunk, chunk.length = 3 ∧ bytes = chunk ++ rest ∧ n = leValue chunk := by
  constructor
  · intro ran
    obtain ⟨chunk, middle, taken, ran⟩ := reader_bind_eq_ok.mp ran
    obtain ⟨rfl, rfl⟩ := reader_pure_eq_ok.mp ran
    obtain ⟨size, rfl⟩ := takeBytes_eq_ok.mp taken
    exact ⟨chunk, size, rfl, rfl⟩
  · rintro ⟨chunk, size, rfl, rfl⟩
    exact reader_bind_eq_ok.mpr ⟨chunk, rest, takeBytes_eq_ok.mpr ⟨size, rfl⟩, rfl⟩

theorem zero_of_leValue {chunk : Bytes} (size : chunk.length = 3) (zero : leValue chunk = 0) :
    chunk = [0, 0, 0] := by
  have bytes := leBytes_leValue chunk
  rw [size, zero] at bytes
  exact bytes.symm

theorem lfc1Inner_cases (sha256 : Bytes → Vector UInt8 32) (reader : CircuitReader E)
    (enforce : Bool) (bytes : Bytes) :
    SafeUnless (NoOutputsLfc1 bytes) ((fromStreamLfc1Inner sha256 reader enforce).run bytes)
      fun result => result.1.raw.Checked := by
  refine ⟨?_, fun outputs => ?_⟩
  · rintro ⟨fid, rest, size, rfl⟩
    refine ⟨"log2 of zero is undefined", ?_⟩
    rw [fromStreamLfc1Inner, StateT.run_bind,
      header_panics (readNumStream_eq_ok.mpr ⟨fid, size, rfl, rfl⟩)
        (readNumStream_eq_ok.mpr ⟨[0, 0, 0], rfl, rfl, rfl⟩)]
    rfl
  · have numbers : SafeReader readNumStream fun _ => True :=
      safeReader_numStream.mono fun _ _ => trivial
    have header := safe_header numbers bytes fun first second => by
      obtain ⟨fid, size, rfl, _⟩ := readNumStream_eq_ok.mp first
      obtain ⟨zero, zeroSize, rfl, value⟩ := readNumStream_eq_ok.mp second
      obtain rfl := zero_of_leValue zeroSize value.symm
      exact outputs ⟨fid, _, size, rfl⟩
    rw [fromStreamLfc1Inner, StateT.run_bind]
    refine header.bind fun (header, rest) checked => ?_
    refine SafeReader.on (fun circuit : Circuit E => circuit.raw.Checked) ?_ rest
    refine (safeReader_numConst numbers).bind fun numconst few => ?_
    refine (safeReader_checkFieldId reader header.fid).bind fun _ _ => ?_
    refine (safeReader_many (safeReader_constant reader.f) numconst).bind
      fun constants ⟨size, _⟩ => ?_
    subst size
    refine (safeReader_layers (safeReader_layerLfc1 reader constants.length) header.nl 0).bind
      fun layers ⟨count, each⟩ => ?_
    exact safeReader_finish reader enforce checked few count each

theorem lfc2Inner_cases (sha256 : Bytes → Vector UInt8 32) (reader : CircuitReader E)
    (enforce : Bool) (bytes : Bytes) :
    SafeUnless (NoOutputsLfc2 bytes) ((fromStreamLfc2Inner sha256 reader enforce).run bytes)
      fun result => result.1.raw.Checked := by
  refine ⟨?_, fun outputs => ?_⟩
  · rintro ⟨fid, zero, rest, isFid, isZero, payload, rfl⟩
    have value : 0 = ulebValue zero := (ulebValue_eq_zero.mpr payload).symm
    refine ⟨"log2 of zero is undefined", ?_⟩
    rw [fromStreamLfc2Inner, StateT.run_bind,
      header_panics (readUleb128Max4_eq_ok.mpr ⟨fid, isFid, rfl, rfl⟩)
        (readUleb128Max4_eq_ok.mpr ⟨zero, isZero, rfl, value⟩)]
    rfl
  · have header := safe_header safeReader_uleb bytes fun first second => by
      obtain ⟨fid, isFid, rfl, _⟩ := readUleb128Max4_eq_ok.mp first
      obtain ⟨zero, isZero, rfl, value⟩ := readUleb128Max4_eq_ok.mp second
      exact outputs ⟨fid, zero, _, isFid, isZero, ulebValue_eq_zero.mp value.symm, rfl⟩
    rw [fromStreamLfc2Inner, StateT.run_bind]
    refine header.bind fun (header, rest) checked => ?_
    refine SafeReader.on (fun circuit : Circuit E => circuit.raw.Checked) ?_ rest
    refine (safeReader_checkFieldId reader header.fid).bind fun _ _ => ?_
    refine (safeReader_numConst safeReader_uleb).bind fun numconst few => ?_
    refine (safeReader_many (safeReader_constant reader.f) numconst).bind
      fun constants ⟨size, _⟩ => ?_
    subst size
    refine (safeReader_layers (safeReader_layerLfc2 reader constants.length) header.nl 0).bind
      fun layers ⟨count, each⟩ => ?_
    exact safeReader_finish reader enforce checked few count each

/-! ### All readers -/

section

variable (reader : CircuitReader E) (enforce : Bool) (buf : Bytes)
include reader enforce buf

theorem fromBytesLfc1_cases :
    SafeUnless (∃ rest, buf = 1 :: rest ∧ NoOutputsLfc1 rest)
      ((fromBytesLfc1 sha256 reader enforce).run buf) fun result => result.1.raw.Checked := by
  have ran : ∀ rest, (fromBytesLfc1 sha256 reader enforce).run (1 :: rest) =
      (fromStreamLfc1Inner sha256 reader enforce).run rest := fun rest => rfl
  refine ⟨?_, fun outputs => ?_⟩
  · rintro ⟨rest, rfl, none⟩
    rw [ran]
    exact (lfc1Inner_cases sha256 reader enforce rest).panics none
  · rw [fromBytesLfc1, StateT.run_bind]
    refine (safeReader_takeBytes 1 _ buf).remember.bind fun (verBuf, rest) ⟨taken, size⟩ => ?_
    obtain ⟨byte, rfl⟩ := List.length_eq_one_iff.mp size
    obtain ⟨_, rfl⟩ := takeBytes_eq_ok.mp taken
    rw [StateT.run_bind]
    refine (safeReader_demand _ _ rest).remember.bind fun (_, rest') ⟨demanded, version⟩ => ?_
    obtain ⟨_, rfl⟩ := reader_lift_eq_ok.mp demanded
    have one : byte = 1 := UInt8.toNat_inj.mp (by simpa [leValue] using version)
    exact (lfc1Inner_cases sha256 reader enforce rest).safe fun none =>
      outputs ⟨rest, by rw [one]; rfl, none⟩

theorem fromBytesLfc2_cases :
    SafeUnless (∃ rest, buf = magicLfc2 ++ rest ∧ NoOutputsLfc2 rest)
      ((fromBytesLfc2 sha256 reader enforce).run buf) fun result => result.1.raw.Checked := by
  have ran : ∀ rest, (fromBytesLfc2 sha256 reader enforce).run (magicLfc2 ++ rest) =
      (fromStreamLfc2Inner sha256 reader enforce).run rest := fun rest => rfl
  refine ⟨?_, fun outputs => ?_⟩
  · rintro ⟨rest, rfl, none⟩
    rw [ran]
    exact (lfc2Inner_cases sha256 reader enforce rest).panics none
  · rw [fromBytesLfc2, StateT.run_bind]
    refine (safeReader_takeBytes 4 _ buf).remember.bind fun (header, rest) ⟨taken, _⟩ => ?_
    obtain ⟨_, rfl⟩ := takeBytes_eq_ok.mp taken
    rw [StateT.run_bind]
    refine (safeReader_demand _ _ rest).remember.bind fun (_, rest') ⟨demanded, marker⟩ => ?_
    obtain ⟨_, rfl⟩ := reader_lift_eq_ok.mp demanded
    exact (lfc2Inner_cases sha256 reader enforce rest).safe fun none =>
      outputs ⟨rest, congrArg (· ++ rest) marker, none⟩

theorem fromBytes_cases :
    SafeUnless (NoOutputs buf) ((fromBytes sha256 reader enforce).run buf) fun result =>
      result.1.raw.Checked := by
  by_cases marker : buf.take 4 = magicLfc2
  · have split : buf = magicLfc2 ++ buf.drop 4 := by rw [← marker, List.take_append_drop]
    have ran : (fromBytes sha256 reader enforce).run buf =
        (fromStreamLfc2Inner sha256 reader enforce).run (buf.drop 4) := if_pos marker
    have same : NoOutputs buf ↔ NoOutputsLfc2 (buf.drop 4) := by
      constructor
      · rintro (⟨rest, rfl, _⟩ | ⟨rest, rfl, none⟩)
        · cases marker
        · exact none
      · exact fun none => .inr ⟨_, split, none⟩
    rw [ran]
    have cases := lfc2Inner_cases sha256 reader enforce (buf.drop 4)
    exact ⟨fun none => cases.panics (same.mp none), fun outputs => cases.safe (mt same.mpr outputs)⟩
  · have other : ∀ rest, buf ≠ magicLfc2 ++ rest := by
      rintro rest rfl
      exact marker rfl
    by_cases older : ∃ rest, buf = 1 :: rest
    · obtain ⟨rest, rfl⟩ := older
      have ran : (fromBytes sha256 reader enforce).run (1 :: rest) =
          (fromStreamLfc1Inner sha256 reader enforce).run rest := by
        show fromBytes sha256 reader enforce (1 :: rest) = _
        rw [fromBytes, if_neg marker]
      have same : NoOutputs (1 :: rest) ↔ NoOutputsLfc1 rest := by
        constructor
        · rintro (⟨rest', same, none⟩ | ⟨rest', same, _⟩)
          · rwa [(List.cons.inj same).2]
          · exact absurd same (other rest')
        · exact fun none => .inl ⟨rest, rfl, none⟩
      rw [ran]
      have cases := lfc1Inner_cases sha256 reader enforce rest
      exact ⟨fun none => cases.panics (same.mp none),
        fun outputs => cases.safe (mt same.mpr outputs)⟩
    · have ran : (fromBytes sha256 reader enforce).run buf = raise "Unsupported format header" := by
        refine (if_neg marker).trans ?_
        split
        · rename_i rest
          exact absurd ⟨rest, rfl⟩ older
        · rfl
      rw [ran]
      refine ⟨?_, fun _ => safe_raise _ _⟩
      rintro (⟨rest, same, _⟩ | ⟨rest, same, _⟩)
      · exact absurd ⟨rest, same⟩ older
      · exact absurd same (other rest)

end

/-- **The readers are total exactly on the bytes that announce outputs.** -/
theorem readers_total_iff (sha256 : Bytes → Vector UInt8 32) (reader : CircuitReader E)
    (enforce : Bool) (buf : Bytes) :
    (Total ((fromBytes sha256 reader enforce).run buf) ↔ ¬NoOutputs buf) ∧
    (Total ((fromBytesLfc1 sha256 reader enforce).run buf) ↔
      ¬∃ rest, buf = 1 :: rest ∧ NoOutputsLfc1 rest) ∧
    (Total ((fromBytesLfc2 sha256 reader enforce).run buf) ↔
      ¬∃ rest, buf = magicLfc2 ++ rest ∧ NoOutputsLfc2 rest) :=
  ⟨(fromBytes_cases reader enforce buf).total_iff,
    (fromBytesLfc1_cases reader enforce buf).total_iff,
    (fromBytesLfc2_cases reader enforce buf).total_iff⟩

/-- Seven bytes of the older format, and six of the compressed one, that end in a panic. -/
theorem readers_panic_without_outputs :
    (fromBytes zeroHash (.new (primeField 251 1) .fp64) false).run [1, 7, 0, 0, 0, 0, 0] =
      abort "log2 of zero is undefined" ∧
    (fromBytes zeroHash (.new (primeField 251 1) .fp64) false).run
      [0x4C, 0x46, 0x43, 0x32, 7, 0] = abort "log2 of zero is undefined" := ⟨rfl, rfl⟩

/-! ### What is accepted -/

/-- The wires of the terms of every layer exist. -/
def WiresFit (constants : List E) (ninput : Nat) : Nat → List Layer → Prop
  | _, [] => True
  | noutput, layer :: layers =>
    (∀ term ∈ layer.termsOf constants,
      term.InRange (if layers = [] then ninput else layer.nw) noutput) ∧
      WiresFit constants ninput layer.nw layers

theorem layersInRange_of_wiresFit {constants : List E} {ninput noutput : Nat} {layers : List Layer}
    (checked : ∀ layer ∈ layers, layer.Checked constants.length)
    (fit : WiresFit constants ninput noutput layers) :
    LayersInRange constants ninput noutput layers := by
  induction layers generalizing noutput with
  | nil => trivial
  | cons layer layers ih =>
    obtain ⟨here, others⟩ := List.forall_mem_cons.mp checked
    refine ⟨⟨here.inRange, fun expands term member => ?_⟩, ih others fit.2⟩
    refine fit.1 term ?_
    rw [Layer.termsOf, expands]
    exact member

/-- **A circuit that a reader accepts** is within the limits of the readers, and every index into
its tables is in range: each layer expands to its terms, and on inputs of the right number the
evaluators return or fail with an error, given that the wires of the terms exist. -/
theorem accepted_checked [CommRing E] [DecidableEq E] (sha256 : Bytes → Vector UInt8 32)
    (reader : CircuitReader E) (enforce : Bool) {buf rest : Bytes} {circuit : Circuit E}
    (accepted : (fromBytes sha256 reader enforce).run buf = .ok (circuit, rest)) :
    circuit.raw.Checked ∧
    (∀ layer ∈ circuit.raw.layers, ∃ terms,
      (layer.terms circuit.raw.constants : Exec String _) = .ok terms) ∧
    (WiresFit circuit.raw.constants circuit.raw.ninput circuit.raw.noutput circuit.raw.layers →
      ∀ (messages : EvalMessages E) (inputs : List E), inputs.length = circuit.raw.ninput →
        Total (evalCircuit messages inputs circuit.raw)) := by
  have checked := (fromBytes_cases reader enforce buf).of_ok accepted
  refine ⟨checked, fun layer member => ?_, fun fit messages inputs size => ?_⟩
  · obtain ⟨terms, expands, _⟩ := Layer.terms_returns (ε := String)
      (checked.layers layer member).inRange
    exact ⟨terms, expands⟩
  · have decides := decides_evalCircuit messages (layersInRange_of_wiresFit checked.layers fit) size
    by_cases accepts : circuit.raw.Accepts inputs
    · exact .inl ⟨_, decides.returns accepts⟩
    · exact .inr (decides.fails accepts)

local instance modulus_neZero : NeZero 251 := inferInstance

/-- A reader of circuits over a small field. -/
def smallReader : CircuitReader (ZMod 251) := .new (primeField 251 1) .fp64

/-- A circuit of one layer with one product. -/
def productCircuit : RawCircuit (ZMod 251) where
  ninput := 2
  npublicInput := 1
  noutput := 1
  logv := 0
  subfieldBoundary := 0
  constants := [1]
  layers := [⟨2, 1, [⟨0, 1, 1, 0⟩], [[0]], [0]⟩]

/-- The bytes of the circuit in the compressed format. -/
def productBytes : Bytes :=
  magicLfc2 ++ ([7, 1, 1, 1, 0, 2, 1, 1, 1, 1, 2, 1, 0, 2, 2, 0, 1, 1, 0, 1, 0] ++
    List.replicate 32 0)

theorem accepted_checked_product :
    (fromBytes zeroHash smallReader false).run productBytes =
        .ok (⟨productCircuit, Vector.replicate 32 0⟩, []) ∧
      productCircuit.Checked ∧ Total (evalCircuit .v2 [1, 0] productCircuit) := by
  have accepted : (fromBytes zeroHash smallReader false).run productBytes =
      .ok (⟨productCircuit, Vector.replicate 32 0⟩, []) := rfl
  obtain ⟨checked, _, evaluates⟩ := accepted_checked zeroHash smallReader false
    accepted
  refine ⟨accepted, checked, evaluates ⟨?_, trivial⟩ .v2 [1, 0] rfl⟩
  intro term member
  obtain rfl := List.mem_singleton.mp member
  exact ⟨by decide, by decide, by decide⟩

/-- A circuit with two outputs and two inputs, whose one layer has eight wires and no rounds to bind
them, and a term on wires that do not exist. -/
def strayCircuit : RawCircuit (ZMod 251) where
  ninput := 2
  npublicInput := 1
  noutput := 2
  logv := 1
  subfieldBoundary := 0
  constants := [1]
  layers := [⟨8, 0, [⟨9, 9, 9, 0⟩], [[0]], [0]⟩]

/-- The bytes of the circuit in the compressed format. -/
def strayBytes : Bytes :=
  magicLfc2 ++ ([7, 2, 1, 1, 0, 2, 1, 1, 1, 0, 8, 1, 18, 18, 18, 0, 1, 1, 0, 1, 0] ++
    List.replicate 32 0)

/-- The readers accept a circuit whose term has its output and both operands out of range, whose
layer is wider than its rounds and than the inputs, and that panics when it is evaluated. -/
theorem accepts_stray_wires :
    (fromBytes zeroHash smallReader false).run strayBytes =
      .ok (⟨strayCircuit, Vector.replicate 32 0⟩, []) ∧
    (∃ layer, strayCircuit.layers = [layer] ∧
      (layer.terms strayCircuit.constants : Exec String _) = .ok [⟨1, 9, 9, 9⟩] ∧
      strayCircuit.noutput ≤ 9 ∧ layer.nw ≤ 9 ∧ ¬layer.nw ≤ 2 ^ layer.logw ∧
      strayCircuit.ninput ≠ layer.nw) ∧
    evalCircuit .v2 [1, 0] strayCircuit = .error (.panic "index out of bounds") := by
  refine ⟨rfl, ⟨_, rfl, rfl, by decide, by decide, by decide, by decide⟩, rfl⟩

end Longfellow
