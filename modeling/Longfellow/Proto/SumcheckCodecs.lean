/-
**The sumcheck proof codecs** (`runtime/proto/src/sumcheck_v1.rs`,
`runtime/proto/src/sumcheck_v2.rs`).

The v1 format writes the two transmitted evaluations of each round for both hands, evaluation by
evaluation, and then the claims of the layer. Nothing but the geometry says how long a proof is.

* `SumcheckV1.reads_sumcheckProof`, `SumcheckV1.canonical_sumcheckProof` — the round trip of the v1
  format and its converse;
* `sumcheck_codecs` — **both formats are bijections on their images**, of the size that the geometry
  announces.
-/

import Longfellow.Proto.SumcheckV1
import Longfellow.Proto.SumcheckV2
import Mathlib.Data.Fin.Basic

namespace Longfellow

open Lib

namespace SumcheckV1

section Model

variable {E : Type} (f : SerializableField E)

/-- The elements of two rounds, one for each hand, in the order of the format. -/
def writeRound (pair : RoundPoly E × RoundPoly E) : Bytes :=
  writeEltField f pair.1.evaluations.1 ++ writeEltField f pair.2.evaluations.1 ++
    (writeEltField f pair.1.evaluations.2 ++ writeEltField f pair.2.evaluations.2)

/-- The bytes of the layer with an index, checked against its number of rounds. -/
def writeLayer (ly logw : Nat) (layer : LayerProof E) : Exec IoError Bytes := do
  check (SaneLogw logw) (invalidData ("Sumcheck layer logw " ++ toString logw ++
    " exceeds MAX_LOGW " ++ toString maxLogw))
  ensure (layer.hp.1.length = logw) ("logw mismatch for hp[0] at layer " ++ toString ly)
  ensure (layer.hp.2.length = logw) ("logw mismatch for hp[1] at layer " ++ toString ly)
  return (layer.hp.1.zip layer.hp.2).flatMap (writeRound f) ++
    (writeEltField f layer.claims.1 ++ writeEltField f layer.claims.2)

/-- The bytes of the layers from an index on. -/
def writeLayers : Nat → List Nat → List (LayerProof E) → Exec IoError Bytes
  | ly, logw :: logws, layer :: layers => do
    let head ← writeLayer f ly logw layer
    let tail ← writeLayers (ly + 1) logws layers
    return head ++ tail
  | _, _, _ => return []

/-- The bytes of a proof. -/
def SumcheckProof.write (p : SumcheckProof E) (geometry : SumcheckProofGeometry) :
    Exec IoError Bytes := do
  ensure (p.layers.length = geometry.logwLayers.length) "nlayers mismatch"
  writeLayers f 0 geometry.logwLayers p.layers

/-- Count the bytes of one layer. -/
def addBytes (total logw : Nat) : Exec IoError Nat := do
  check (SaneLogw logw) (invalidData ("Sumcheck layer logw " ++ toString logw ++
    " exceeds MAX_LOGW " ++ toString maxLogw))
  let hpElts ← okOr (checkedMul logw 4) (invalidData "Overflow computing hp elements")
  let layerElts ← okOr (checkedAdd hpElts 2) (invalidData "Overflow computing layer elements")
  let layerBytes ← okOr (checkedMul layerElts f.serializedSizeBytes)
    (invalidData "Overflow computing layer bytes")
  okOr (checkedAdd total layerBytes) (invalidData "Overflow computing total bytes")

/-- Fail unless some bytes are left. -/
def checkTotal (totalLen : Nat) : Reader IoError Unit := fun bytes =>
  if totalLen ≤ bytes.length then pure ((), bytes)
  else raise (invalidData ("SumcheckProof size mismatch: expected at least " ++ toString totalLen ++
    " bytes, got " ++ toString bytes.length))

/-- Read two rounds, one for each hand. -/
def readRound : Reader IoError (RoundPoly E × RoundPoly E) := do
  let p00 ← readEltField f
  let p10 ← readEltField f
  let p02 ← readEltField f
  let p12 ← readEltField f
  return (⟨(p00, p02)⟩, ⟨(p10, p12)⟩)

/-- Read one layer. -/
def readLayer (logw : Nat) : Reader IoError (LayerProof E) := do
  let rounds ← readMany (readRound f) logw
  let c0 ← readEltField f
  let c1 ← readEltField f
  return ⟨rounds.unzip, (c0, c1)⟩

/-- Read a proof of the given geometry. -/
def SumcheckProof.read (geometry : SumcheckProofGeometry) : Reader IoError (SumcheckProof E) := do
  let totalLen ← liftM (geometry.logwLayers.foldlM (addBytes f) 0)
  checkTotal totalLen
  let layers ← geometry.logwLayers.mapM (readLayer f)
  return ⟨layers⟩

end Model

/-! ### Layers -/

variable {E : Type} {f : SerializableField E}

/-- A layer of a number of rounds that the format can hold. -/
def LayerFits (logw : Nat) (layer : LayerProof E) : Prop := SaneLogw logw ∧ layer.Rounds logw

/-- The bytes of a layer that fits. -/
def layerBytes (f : SerializableField E) (layer : LayerProof E) : Bytes :=
  (layer.hp.1.zip layer.hp.2).flatMap (writeRound f) ++
    (writeEltField f layer.claims.1 ++ writeEltField f layer.claims.2)

variable {logw : Nat} {layer : LayerProof E} {bytes : Bytes}

theorem writeLayer_eq_ok {ly : Nat} :
    writeLayer f ly logw layer = .ok bytes ↔ LayerFits logw layer ∧ bytes = layerBytes f layer := by
  simp only [writeLayer, bind_eq_ok, check_eq_ok, ensure_eq_ok, pure_eq_ok, Except.ok.injEq]
  constructor
  · rintro ⟨_, sane, _, right, _, left, rfl⟩
    exact ⟨⟨sane, right, left⟩, rfl⟩
  · rintro ⟨⟨sane, right, left⟩, rfl⟩
    exact ⟨(), sane, (), right, (), left, rfl⟩

theorem reads_round (field : LawfulField f) (pair : RoundPoly E × RoundPoly E) :
    Reads (readRound f) (writeRound f pair) pair := by
  obtain ⟨⟨r0, r2⟩, ⟨l0, l2⟩⟩ := pair
  rw [writeRound, List.append_assoc]
  refine (reads_eltField field r0).bind ((reads_eltField field l0).bind ?_)
  exact (reads_eltField field r2).bind ((reads_eltField field l2).andReturn _)

theorem canonical_round (field : LawfulField f) :
    Canonical (readRound f) (fun _ => True) (writeRound f) := by
  intro bytes pair rest ran
  obtain ⟨p00, _, read00, ran⟩ := reader_bind_eq_ok.mp ran
  obtain ⟨p10, _, read10, ran⟩ := reader_bind_eq_ok.mp ran
  obtain ⟨p02, _, read02, ran⟩ := reader_bind_eq_ok.mp ran
  obtain ⟨p12, _, read12, ran⟩ := reader_bind_eq_ok.mp ran
  obtain ⟨rfl, rfl⟩ := reader_pure_eq_ok.mp ran
  obtain ⟨_, rfl⟩ := canonical_eltField field read00
  obtain ⟨_, rfl⟩ := canonical_eltField field read10
  obtain ⟨_, rfl⟩ := canonical_eltField field read02
  obtain ⟨_, rfl⟩ := canonical_eltField field read12
  exact ⟨trivial, by simp only [writeRound, List.append_assoc]⟩

theorem reads_layer (field : LawfulField f) (rounds : layer.Rounds logw) :
    Reads (readLayer f logw) (layerBytes f layer) layer := by
  have size : (layer.hp.1.zip layer.hp.2).length = logw := by
    rw [List.length_zip, rounds.1, rounds.2, Nat.min_self]
  have unzipped : (layer.hp.1.zip layer.hp.2).unzip = layer.hp :=
    List.unzip_zip (rounds.1.trans rounds.2.symm)
  have many : Reads (readMany (readRound f) logw)
      ((layer.hp.1.zip layer.hp.2).flatMap (writeRound f)) (layer.hp.1.zip layer.hp.2) :=
    size ▸ reads_many fun pair _ => reads_round field pair
  refine many.bind ((reads_eltField field layer.claims.1).bind ?_)
  rw [unzipped]
  exact (reads_eltField field layer.claims.2).andReturn _

theorem canonical_layer (field : LawfulField f) (logw : Nat) :
    Canonical (readLayer f logw) (fun layer => layer.Rounds logw) (layerBytes f) := by
  intro bytes layer rest ran
  obtain ⟨rounds, _, readRounds, ran⟩ := reader_bind_eq_ok.mp ran
  obtain ⟨c0, _, read0, ran⟩ := reader_bind_eq_ok.mp ran
  obtain ⟨c1, _, read1, ran⟩ := reader_bind_eq_ok.mp ran
  obtain ⟨rfl, rfl⟩ := reader_pure_eq_ok.mp ran
  obtain ⟨⟨size, _⟩, rfl⟩ := canonical_many (canonical_round field) logw readRounds
  obtain ⟨_, rfl⟩ := canonical_eltField field read0
  obtain ⟨_, rfl⟩ := canonical_eltField field read1
  refine ⟨⟨?_, ?_⟩, ?_⟩
  · rw [List.unzip_fst, List.length_map, size]
  · rw [List.unzip_snd, List.length_map, size]
  · have zipped : rounds.unzip.1.zip rounds.unzip.2 = rounds := List.zip_unzip rounds
    simp only [layerBytes, zipped, List.append_assoc]

theorem length_layerBytes (rounds : layer.Rounds logw) :
    (layerBytes f layer).length = (4 * logw + 2) * f.serializedSizeBytes := by
  have size : (layer.hp.1.zip layer.hp.2).length = logw := by
    rw [List.length_zip, rounds.1, rounds.2, Nat.min_self]
  simp only [layerBytes, writeRound, writeEltField, List.length_append, List.length_flatMap,
    f.length_toBytes, List.map_const', List.sum_replicate_nat, size]
  ring

/-! ### The whole proof -/

/-- A proof of the shape of the geometry, with rounds that the format can hold. -/
def SumcheckProof.Fits (p : SumcheckProof E) (geometry : SumcheckProofGeometry) : Prop :=
  List.Forall₂ LayerFits geometry.logwLayers p.layers

variable {logws : List Nat} {layers : List (LayerProof E)}

theorem writeLayers_eq_ok {ly : Nat} (size : layers.length = logws.length) :
    writeLayers f ly logws layers = .ok bytes ↔
      List.Forall₂ LayerFits logws layers ∧ bytes = layers.flatMap (layerBytes f) := by
  induction logws generalizing layers ly bytes with
  | nil =>
    obtain rfl := List.eq_nil_of_length_eq_zero size
    simp [writeLayers, eq_comm]
  | cons logw logws ih =>
    cases layers with
    | nil => cases size
    | cons layer layers =>
      have size' : layers.length = logws.length := Nat.succ.inj size
      simp only [writeLayers, bind_eq_ok, writeLayer_eq_ok, pure_eq_ok, Except.ok.injEq,
        ih size', List.forall₂_cons, List.flatMap_cons]
      constructor
      · rintro ⟨_, ⟨fits, rfl⟩, _, ⟨all, rfl⟩, rfl⟩
        exact ⟨⟨fits, all⟩, rfl⟩
      · rintro ⟨⟨fits, all⟩, rfl⟩
        exact ⟨_, ⟨fits, rfl⟩, _, ⟨all, rfl⟩, rfl⟩

variable {p : SumcheckProof E} {geometry : SumcheckProofGeometry}

theorem SumcheckProof.write_eq_ok : p.write f geometry = .ok bytes ↔
      p.Fits geometry ∧ bytes = p.layers.flatMap (layerBytes f) := by
  rw [SumcheckProof.write, bind_eq_ok]
  constructor
  · rintro ⟨_, size, wrote⟩
    exact (writeLayers_eq_ok (ensure_eq_ok.mp size)).mp wrote
  · intro wrote
    have size : p.layers.length = geometry.logwLayers.length := wrote.1.length_eq.symm
    exact ⟨(), ensure_of size, (writeLayers_eq_ok size).mpr wrote⟩

/-- The number of elements of a shape. -/
def elementCount (logws : List Nat) : Nat := (logws.map fun logw => 4 * logw + 2).sum

theorem length_layersBytes (fits : List.Forall₂ LayerFits logws layers) :
    (layers.flatMap (layerBytes f)).length = elementCount logws * f.serializedSizeBytes := by
  induction fits with
  | nil => simp [elementCount]
  | cons head _ ih =>
    rw [List.flatMap_cons, List.length_append, ih, length_layerBytes head.2, elementCount,
      elementCount, List.map_cons, List.sum_cons]
    ring

theorem checkedMul_of_lt {a b : Nat} (fits : a * b < 2 ^ 64) : checkedMul a b = some (a * b) :=
  if_pos fits

theorem checkedAdd_of_lt {a b : Nat} (fits : a + b < 2 ^ 64) : checkedAdd a b = some (a + b) :=
  if_pos fits

theorem addBytes_of_fits {total : Nat} (sane : SaneLogw logw)
    (machine : total + (4 * logw + 2) * f.serializedSizeBytes < 2 ^ 64) :
    addBytes f total logw = .ok (total + (4 * logw + 2) * f.serializedSizeBytes) := by
  have small : logw < 64 := sane.2
  rw [addBytes, check_of sane, ok_bind, checkedMul_of_lt (by omega)]
  show (okOr (checkedAdd (logw * 4) 2) _ >>= _) = _
  rw [checkedAdd_of_lt (by omega), Nat.mul_comm logw 4]
  show (okOr (checkedMul (4 * logw + 2) f.serializedSizeBytes) _ >>= _) = _
  rw [checkedMul_of_lt (by omega)]
  show okOr (checkedAdd total ((4 * logw + 2) * f.serializedSizeBytes)) _ = _
  rw [checkedAdd_of_lt machine]
  rfl

theorem foldlM_addBytes {start : Nat} (sane : ∀ logw ∈ logws, SaneLogw logw)
    (machine : start + elementCount logws * f.serializedSizeBytes < 2 ^ 64) :
    logws.foldlM (addBytes f) start =
      .ok (start + elementCount logws * f.serializedSizeBytes) := by
  induction logws generalizing start with
  | nil => simp [elementCount]
  | cons logw logws ih =>
    have split : elementCount (logw :: logws) = 4 * logw + 2 + elementCount logws := rfl
    rw [split, Nat.add_mul, ← Nat.add_assoc] at machine ⊢
    obtain ⟨head, rest⟩ := List.forall_mem_cons.mp sane
    rw [List.foldlM_cons, addBytes_of_fits head (by omega), ok_bind, ih rest machine]

theorem foldlM_addElements {start : Nat} (sane : ∀ logw ∈ logws, SaneLogw logw)
    (machine : start + elementCount logws < 2 ^ 64) :
    logws.foldlM addElements start = .ok (start + elementCount logws) := by
  induction logws generalizing start with
  | nil => simp [elementCount]
  | cons logw logws ih =>
    have split : elementCount (logw :: logws) = 4 * logw + 2 + elementCount logws := rfl
    rw [split, ← Nat.add_assoc] at machine ⊢
    obtain ⟨head, rest⟩ := List.forall_mem_cons.mp sane
    have step : addElements start logw = .ok (start + (4 * logw + 2)) := by
      rw [addElements, check_of head, ok_bind, checkedAdd_of_lt (by omega)]
      rfl
    rw [List.foldlM_cons, step, ok_bind, ih rest machine]

theorem SumcheckProof.Fits.sane (fits : p.Fits geometry) :
    ∀ logw ∈ geometry.logwLayers, SaneLogw logw := by
  intro logw member
  obtain ⟨_, _, layer⟩ := exists_of_mem_left fits member
  exact layer.1

theorem checkTotal_eq_ok {totalLen : Nat} {rest : Bytes} :
    (checkTotal totalLen).run bytes = .ok ((), rest) ↔
      totalLen ≤ bytes.length ∧ bytes = rest := by
  show (if _ then _ else _) = _ ↔ _
  by_cases enough : totalLen ≤ bytes.length <;> simp [enough]

/-- **The reader returns the proof that was written**, given a byte string of machine size. -/
theorem reads_sumcheckProof (field : LawfulField f) (written : p.write f geometry = .ok bytes)
    (machine : bytes.length < 2 ^ 64) : Reads (SumcheckProof.read f geometry) bytes p := by
  obtain ⟨fits, rfl⟩ := SumcheckProof.write_eq_ok.mp written
  have size := length_layersBytes (f := f) fits
  have counted : geometry.logwLayers.foldlM (addBytes f) 0 = .ok _ :=
    foldlM_addBytes fits.sane (by rw [Nat.zero_add, ← size]; exact machine)
  rw [Nat.zero_add, ← size] at counted
  have layers : Reads (geometry.logwLayers.mapM (readLayer f)) (p.layers.flatMap (layerBytes f))
      p.layers := reads_mapM (fits.imp fun _ _ layer => reads_layer field layer.2)
  refine Reads.guarded (Reads.lift counted) fun rest => ?_
  refine reader_bind_eq_ok.mpr ⟨(), _, checkTotal_eq_ok.mpr ⟨?_, rfl⟩, layers.andReturn _ rest⟩
  rw [List.length_append]
  exact Nat.le_add_right _ _

theorem fits_of_rounds (sane : ∀ logw ∈ logws, SaneLogw logw)
    (rounds : List.Forall₂ (fun logw (layer : LayerProof E) => layer.Rounds logw) logws layers) :
    List.Forall₂ LayerFits logws layers := by
  induction rounds with
  | nil => exact .nil
  | cons head _ ih =>
    obtain ⟨here, rest⟩ := List.forall_mem_cons.mp sane
    exact .cons ⟨here, head⟩ (ih rest)

/-- **What the reader accepts** is the encoding of what it returns. -/
theorem canonical_sumcheckProof (field : LawfulField f) {rest : Bytes}
    (ran : (SumcheckProof.read f geometry).run bytes = .ok (p, rest)) :
    ∃ w, p.write f geometry = .ok w ∧ bytes = w ++ rest := by
  obtain ⟨count, _, counting, ran⟩ := reader_bind_eq_ok.mp ran
  obtain ⟨_, _, enough, ran⟩ := reader_bind_eq_ok.mp ran
  obtain ⟨layers, _, readLayers, ran⟩ := reader_bind_eq_ok.mp ran
  obtain ⟨rfl, rfl⟩ := reader_pure_eq_ok.mp ran
  obtain ⟨counted, rfl⟩ := reader_lift_eq_ok.mp counting
  obtain ⟨_, rfl⟩ := checkTotal_eq_ok.mp enough
  obtain ⟨rounds, rfl⟩ := canonical_mapM (canonical_layer field) _ readLayers
  have fits := fits_of_rounds
    (forall_of_foldlM_check (f := addBytes f) (fun _ _ => rfl) counted) rounds
  exact ⟨_, SumcheckProof.write_eq_ok.mpr ⟨fits, rfl⟩, rfl⟩

theorem serializedElements_of_write (sized : 0 < f.serializedSizeBytes)
    (written : p.write f geometry = .ok bytes) (machine : bytes.length < 2 ^ 64) :
    ∃ count, geometry.serializedElements = .ok count ∧
      count * f.serializedSizeBytes = bytes.length := by
  obtain ⟨fits, rfl⟩ := SumcheckProof.write_eq_ok.mp written
  have size := length_layersBytes (f := f) fits
  have few : elementCount geometry.logwLayers ≤
      elementCount geometry.logwLayers * f.serializedSizeBytes := Nat.le_mul_of_pos_right _ sized
  refine ⟨0 + elementCount geometry.logwLayers, foldlM_addElements fits.sane ?_, ?_⟩
  · omega
  · rw [Nat.zero_add, size]

end SumcheckV1

/-! ### Both formats -/

theorem serializedSizeBytes_pos {E : Type} [Nontrivial E] {f : SerializableField E}
    (field : LawfulField f) : 0 < f.serializedSizeBytes := by
  obtain ⟨a, b, different⟩ := exists_pair_ne E
  by_contra none
  have empty : ∀ e, f.toBytes e = [] := fun e =>
    List.eq_nil_of_length_eq_zero ((f.length_toBytes e).trans (by omega))
  have same := (field.parse_toBytes a).symm.trans
    ((congrArg f.bytesToElement ((empty a).trans (empty b).symm)).trans (field.parse_toBytes b))
  exact different (Except.ok.inj same)

/-- A proof of the shape of a geometry is written in the v1 format exactly when the numbers of rounds
are within the format's limit. -/
theorem SumcheckV1.write_returns_iff {E : Type} {f : SerializableField E}
    {geometry : SumcheckV1.SumcheckProofGeometry} {p : SumcheckV1.SumcheckProof E}
    (rounds : List.Forall₂ (fun logw (layer : SumcheckV1.LayerProof E) => layer.Rounds logw)
      geometry.logwLayers p.layers) :
    (∃ bytes, p.write f geometry = .ok bytes) ↔ ∀ logw ∈ geometry.logwLayers, SaneLogw logw := by
  constructor
  · rintro ⟨bytes, written⟩
    exact (SumcheckV1.SumcheckProof.write_eq_ok.mp written).1.sane
  · intro sane
    exact ⟨_, SumcheckV1.SumcheckProof.write_eq_ok.mpr ⟨SumcheckV1.fits_of_rounds sane rounds, rfl⟩⟩

theorem SumcheckV2.write_returns_iff {E : Type} {f : SerializableField E}
    {geometry : SumcheckV2.SumcheckProofGeometry} {p : SumcheckV2.SumcheckProof E}
    (rounds : List.Forall₂ (fun logw (layer : SumcheckV2.LayerProof E) =>
      layer.rounds.length = logw) geometry.logwLayers p.layers) :
    (∃ bytes, p.write f geometry = .ok bytes) ↔
      ∃ count, geometry.serializedElements = .ok count := by
  constructor
  · rintro ⟨bytes, written⟩
    exact (SumcheckV2.SumcheckProof.write_eq_ok.mp written).1.elements
  · intro elements
    exact ⟨_, SumcheckV2.SumcheckProof.write_eq_ok.mpr ⟨⟨rounds, elements⟩, rfl⟩⟩

theorem SumcheckV2.serializedElements_of_write {E : Type} {f : SerializableField E}
    {geometry : SumcheckV2.SumcheckProofGeometry} {p : SumcheckV2.SumcheckProof E} {bytes : Bytes}
    (written : p.write f geometry = .ok bytes) :
    ∃ count, geometry.serializedElements = .ok count ∧
      count * f.serializedSizeBytes = bytes.length := by
  obtain ⟨⟨rounds, count, counted⟩, rfl⟩ := SumcheckV2.SumcheckProof.write_eq_ok.mp written
  refine ⟨count, counted, ?_⟩
  rw [SumcheckV2.length_writeLayers rounds, SumcheckV2.foldlM_addElements counted, Nat.zero_add]

/-- **The sumcheck proof formats are bijections on their images.** For every geometry, a proof of its
shape is written exactly when the numbers of rounds are within the limit of the format (and, for v2,
the elements can be counted); a written proof of machine size is read back, whatever follows it, and
has the announced number of elements; and whatever a reader accepts is the encoding of what it
returns. -/
theorem sumcheck_codecs {E : Type} [Nontrivial E] {f : SerializableField E}
    (field : LawfulField f) :
    (∀ (geometry : SumcheckV1.SumcheckProofGeometry) (p : SumcheckV1.SumcheckProof E),
      (List.Forall₂ (fun logw (layer : SumcheckV1.LayerProof E) => layer.Rounds logw)
        geometry.logwLayers p.layers →
        ((∃ bytes, p.write f geometry = .ok bytes) ↔ ∀ logw ∈ geometry.logwLayers, SaneLogw logw)) ∧
      ∀ bytes, p.write f geometry = .ok bytes → bytes.length < 2 ^ 64 →
        (∀ rest, (SumcheckV1.SumcheckProof.read f geometry).run (bytes ++ rest) = .ok (p, rest)) ∧
        ∃ count, geometry.serializedElements = .ok count ∧
          count * f.serializedSizeBytes = bytes.length) ∧
    (∀ (geometry : SumcheckV1.SumcheckProofGeometry) (bytes rest : Bytes)
      (p : SumcheckV1.SumcheckProof E),
      (SumcheckV1.SumcheckProof.read f geometry).run bytes = .ok (p, rest) →
      ∃ w, p.write f geometry = .ok w ∧ bytes = w ++ rest) ∧
    (∀ (geometry : SumcheckV2.SumcheckProofGeometry) (p : SumcheckV2.SumcheckProof E),
      (List.Forall₂ (fun logw (layer : SumcheckV2.LayerProof E) => layer.rounds.length = logw)
        geometry.logwLayers p.layers →
        ((∃ bytes, p.write f geometry = .ok bytes) ↔
          ∃ count, geometry.serializedElements = .ok count)) ∧
      ∀ bytes, p.write f geometry = .ok bytes → bytes.length < 2 ^ 64 →
        (∀ rest, (SumcheckV2.SumcheckProof.read f geometry).run (bytes ++ rest) = .ok (p, rest)) ∧
        ∃ count, geometry.serializedElements = .ok count ∧
          count * f.serializedSizeBytes = bytes.length) ∧
    ∀ (geometry : SumcheckV2.SumcheckProofGeometry) (bytes rest : Bytes)
      (p : SumcheckV2.SumcheckProof E),
      (SumcheckV2.SumcheckProof.read f geometry).run bytes = .ok (p, rest) →
      ∃ w, p.write f geometry = .ok w ∧ bytes = w ++ rest := by
  refine ⟨fun geometry p => ⟨SumcheckV1.write_returns_iff, fun bytes written machine => ⟨?_, ?_⟩⟩,
    fun geometry bytes rest p ran => ?_,
    fun geometry p => ⟨SumcheckV2.write_returns_iff, fun bytes written machine => ⟨?_, ?_⟩⟩,
    fun geometry bytes rest p ran => ?_⟩
  · exact SumcheckV1.reads_sumcheckProof field written machine
  · exact SumcheckV1.serializedElements_of_write (serializedSizeBytes_pos field) written machine
  · exact SumcheckV1.canonical_sumcheckProof field ran
  · exact SumcheckV2.reads_sumcheckProof field written machine
  · exact SumcheckV2.serializedElements_of_write written
  · exact SumcheckV2.canonical_sumcheckProof field ran

/-- Two layers of a v1 proof over the field of three elements. -/
theorem sumcheck_codecs_small :
    let f := primeField 3 1
    let geometry : SumcheckV1.SumcheckProofGeometry := ⟨[1, 0]⟩
    let p : SumcheckV1.SumcheckProof (Fin 3) :=
      ⟨[⟨([⟨(1, 2)⟩], [⟨(0, 1)⟩]), (2, 0)⟩, ⟨([], []), (1, 1)⟩]⟩
    p.write f geometry = .ok [1, 0, 2, 1, 2, 0, 1, 1] ∧
      ∀ rest, (SumcheckV1.SumcheckProof.read f geometry).run
        ([1, 0, 2, 1, 2, 0, 1, 1] ++ rest) = .ok (p, rest) := by
  intro f geometry p
  have written : p.write f geometry = .ok [1, 0, 2, 1, 2, 0, 1, 1] := by rfl
  exact ⟨written,
    (((sumcheck_codecs (lawful_primeField (by decide) : LawfulField f)).1 geometry p).2 _ written
      (by decide)).1⟩

end Longfellow
