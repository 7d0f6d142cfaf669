/-
**The v2 sumcheck proof format** (`runtime/proto/src/sumcheck_v2.rs`): two coefficients per round
and two claims per layer, with the number of rounds fixed by the geometry.

* `reads_sumcheckProof`, `canonical_sumcheckProof` — the round trip and its converse.
-/

import Longfellow.Proto.Util

namespace Longfellow.SumcheckV2

open Lib

/-- Maximum rounds in one serialized layer. -/
def maxLogw : Nat := 40

/-- Whether a round count fits the proof format. -/
def SaneLogw (logw : Nat) : Prop := logw ≤ maxLogw

instance (logw : Nat) : Decidable (SaneLogw logw) := inferInstanceAs (Decidable (logw ≤ maxLogw))

/-- Two masked coefficients of a round polynomial; the third one follows from the claim. -/
structure RoundPoly (E : Type) where
  coefficients : E × E
  deriving DecidableEq, Repr

/-- The masked messages of one layer: its rounds and its two final claims. -/
structure LayerProof (E : Type) where
  rounds : List (RoundPoly E)
  claims : E × E
  deriving DecidableEq, Repr

structure SumcheckProof (E : Type) where
  layers : List (LayerProof E)
  deriving DecidableEq, Repr

/-- The number of rounds of each layer. -/
structure SumcheckProofGeometry where
  logwLayers : List Nat
  deriving DecidableEq, Repr

/-- Count one layer's elements. -/
def addElements (total logw : Nat) : Exec IoError Nat := do
  check (SaneLogw logw) (invalidData "sumcheck logw exceeds MAX_LOGW")
  match checkedAdd total (2 * logw + 2) with
  | some sum => pure sum
  | none => raise (invalidData "sumcheck size overflow")

/-- The number of transmitted elements. -/
def SumcheckProofGeometry.serializedElements (geometry : SumcheckProofGeometry) :
    Exec IoError Nat := geometry.logwLayers.foldlM addElements 0

variable {E : Type}

/-- Check the shape of a proof. -/
def SumcheckProof.validate (p : SumcheckProof E) (geometry : SumcheckProofGeometry) :
    Exec IoError Unit := do
  check (¬(p.layers.length ≠ geometry.logwLayers.length ∨
    ¬(p.layers.zip geometry.logwLayers).all fun pair => pair.1.rounds.length == pair.2))
    (invalidData "sumcheck shape mismatch")
  let _ ← geometry.serializedElements
  pure ()

section Model

variable (f : SerializableField E)

/-- The bytes of one layer: the rounds' coefficients and the claims. -/
def writeLayer (layer : LayerProof E) : Bytes :=
  (layer.rounds.flatMap fun round =>
    writeEltField f round.coefficients.1 ++ writeEltField f round.coefficients.2) ++
  (writeEltField f layer.claims.1 ++ writeEltField f layer.claims.2)

/-- The bytes of a proof. -/
def SumcheckProof.write (p : SumcheckProof E) (geometry : SumcheckProofGeometry) :
    Exec IoError Bytes := do
  p.validate geometry
  pure (p.layers.flatMap (writeLayer f))

/-- Read two elements. -/
def readPair : Reader IoError (E × E) := do
  let first ← readEltField f
  let second ← readEltField f
  pure (first, second)

/-- Read one round. -/
def readRound : Reader IoError (RoundPoly E) := do
  let coefficients ← readPair f
  pure ⟨coefficients⟩

/-- Read one layer. -/
def readLayer (logw : Nat) : Reader IoError (LayerProof E) := do
  let rounds ← readMany (readRound f) logw
  let claims ← readPair f
  pure ⟨rounds, claims⟩

/-- Read a proof of the given geometry. -/
def SumcheckProof.read (geometry : SumcheckProofGeometry) : Reader IoError (SumcheckProof E) := do
  let elements ← liftM geometry.serializedElements
  let size ← liftM (match checkedMul elements f.serializedSizeBytes with
    | some size => pure size
    | none => raise (invalidData "sumcheck byte size overflow") : Exec IoError Nat)
  checkLeft (fun bytes => size ≤ bytes.length) (invalidData "truncated sumcheck proof")
  let layers ← geometry.logwLayers.mapM (readLayer f)
  pure ⟨layers⟩

end Model

variable {f : SerializableField E}

/-! ### The geometry -/

/-- A proof of the shape of the geometry. -/
structure SumcheckProof.Shaped (p : SumcheckProof E) (geometry : SumcheckProofGeometry) : Prop where
  rounds : List.Forall₂ (fun logw (layer : LayerProof E) => layer.rounds.length = logw)
    geometry.logwLayers p.layers
  elements : ∃ count, geometry.serializedElements = .ok count

variable {logws : List Nat} {layers : List (LayerProof E)}

theorem forall₂_rounds :
    (layers.length = logws.length ∧
      (layers.zip logws).all (fun pair => pair.1.rounds.length == pair.2) = true) ↔
      List.Forall₂ (fun logw (layer : LayerProof E) => layer.rounds.length = logw) logws layers :=
  (forall₂_of_zip_all (r := fun (layer : LayerProof E) logw => layer.rounds.length == logw)).trans (by
    simp only [beq_iff_eq])

variable {p : SumcheckProof E} {geometry : SumcheckProofGeometry}

theorem SumcheckProof.validate_eq_ok {u : Unit} :
    p.validate geometry = .ok u ↔ p.Shaped geometry := by
  simp only [SumcheckProof.validate, bind_eq_ok, check_eq_ok, pure_eq_ok]
  constructor
  · rintro ⟨_, shape, count, counted, _⟩
    push Not at shape
    exact ⟨forall₂_rounds.mp shape, count, counted⟩
  · rintro ⟨rounds, count, counted⟩
    refine ⟨(), ?_, count, counted, trivial⟩
    push Not
    exact forall₂_rounds.mpr rounds

section

variable {start count : Nat} (counted : logws.foldlM addElements start = .ok count)
include counted

theorem foldlM_addElements :
    count = start + (logws.map fun logw => 2 * logw + 2).sum := by
  induction logws generalizing start with
  | nil => simpa using counted.symm
  | cons logw logws ih =>
    rw [List.foldlM_cons, bind_eq_ok] at counted
    obtain ⟨next, stepped, counted⟩ := counted
    have sum : next = start + (2 * logw + 2) := by
      simp only [addElements, bind_eq_ok, checkedAdd] at stepped
      obtain ⟨_, _, added⟩ := stepped
      split at added
      · next sum found =>
          split at found
          · obtain rfl := Option.some.inj found
            simpa using added.symm
          · cases found
      · exact absurd added (raise_ne_ok _ _)
    rw [ih counted, sum, List.map_cons, List.sum_cons, Nat.add_assoc]

theorem sane_of_foldlM :
    ∀ logw ∈ logws, SaneLogw logw :=
  forall_of_foldlM_check (fun _ _ => rfl) counted

end

theorem SumcheckProof.Shaped.sane (shaped : p.Shaped geometry) :
    ∀ logw ∈ geometry.logwLayers, SaneLogw logw := by
  obtain ⟨count, counted⟩ := shaped.elements
  exact sane_of_foldlM counted

/-! ### Layers -/

theorem reads_pair (field : LawfulField f) (pair : E × E) :
    Reads (readPair f) (writeEltField f pair.1 ++ writeEltField f pair.2) pair :=
  (reads_eltField field pair.1).bind ((reads_eltField field pair.2).andReturn _)

theorem canonical_pair (field : LawfulField f) :
    Canonical (readPair f) (fun _ => True)
      (fun pair => writeEltField f pair.1 ++ writeEltField f pair.2) := by
  intro bytes pair rest ran
  obtain ⟨first, _, readFirst, ran⟩ := reader_bind_eq_ok.mp ran
  obtain ⟨second, _, readSecond, ran⟩ := reader_bind_eq_ok.mp ran
  obtain ⟨rfl, rfl⟩ := reader_pure_eq_ok.mp ran
  obtain ⟨_, rfl⟩ := canonical_eltField field readFirst
  obtain ⟨_, rfl⟩ := canonical_eltField field readSecond
  exact ⟨trivial, by simp only [List.append_assoc]⟩

theorem reads_layer (field : LawfulField f) {logw : Nat} {layer : LayerProof E}
    (rounds : layer.rounds.length = logw) : Reads (readLayer f logw) (writeLayer f layer) layer := by
  refine Reads.bind (rounds ▸ reads_many fun round _ => ?_)
    ((reads_pair field layer.claims).checked (Reads.pure layer))
  exact (reads_pair field round.coefficients).andReturn RoundPoly.mk

theorem canonical_layer (field : LawfulField f) (logw : Nat) :
    Canonical (readLayer f logw) (fun layer => layer.rounds.length = logw) (writeLayer f) := by
  have round : Canonical (readRound f) (fun _ => True) fun round =>
      writeEltField f round.coefficients.1 ++ writeEltField f round.coefficients.2 := by
    intro bytes round rest ran
    obtain ⟨coefficients, _, read, ran⟩ := reader_bind_eq_ok.mp ran
    obtain ⟨rfl, rfl⟩ := reader_pure_eq_ok.mp ran
    exact canonical_pair field read
  intro bytes layer rest ran
  obtain ⟨rounds, _, readRounds, ran⟩ := reader_bind_eq_ok.mp ran
  obtain ⟨claims, _, readClaims, ran⟩ := reader_bind_eq_ok.mp ran
  obtain ⟨rfl, rfl⟩ := reader_pure_eq_ok.mp ran
  obtain ⟨⟨size, _⟩, rfl⟩ := canonical_many round logw readRounds
  obtain ⟨_, rfl⟩ := canonical_pair field readClaims
  exact ⟨size, by simp only [writeLayer, List.append_assoc]⟩

theorem length_writeLayers
    (rounds : List.Forall₂ (fun logw (layer : LayerProof E) => layer.rounds.length = logw)
      logws layers) :
    (layers.flatMap (writeLayer f)).length =
      (logws.map fun logw => 2 * logw + 2).sum * f.serializedSizeBytes := by
  induction rounds with
  | nil => simp
  | @cons logw layer logws layers head _ ih =>
    have size : (writeLayer f layer).length = (2 * logw + 2) * f.serializedSizeBytes := by
      simp only [writeLayer, writeEltField, List.length_append, List.length_flatMap,
        f.length_toBytes, List.map_const', List.sum_replicate_nat, head]
      ring
    rw [List.flatMap_cons, List.length_append, ih, size, List.map_cons, List.sum_cons]
    ring

/-! ### The whole proof -/

variable {bytes : Bytes}

theorem SumcheckProof.write_eq_ok : p.write f geometry = .ok bytes ↔
      p.Shaped geometry ∧ bytes = p.layers.flatMap (writeLayer f) := by
  simp only [SumcheckProof.write, bind_eq_ok, SumcheckProof.validate_eq_ok, pure_eq_ok,
    Except.ok.injEq]
  constructor
  · rintro ⟨_, shaped, rfl⟩
    exact ⟨shaped, rfl⟩
  · rintro ⟨shaped, rfl⟩
    exact ⟨(), shaped, rfl⟩

theorem reads_sumcheckProof (field : LawfulField f) (written : p.write f geometry = .ok bytes)
    (machine : bytes.length < 2 ^ 64) : Reads (SumcheckProof.read f geometry) bytes p := by
  obtain ⟨⟨rounds, count, counted⟩, rfl⟩ := SumcheckProof.write_eq_ok.mp written
  have size := length_writeLayers (f := f) rounds
  have total := foldlM_addElements counted
  rw [Nat.zero_add] at total
  rw [← total] at size
  have fits : checkedMul count f.serializedSizeBytes = some (count * f.serializedSizeBytes) :=
    if_pos (size ▸ machine)
  refine Reads.guarded (Reads.lift counted) ?_
  rw [fits]
  refine Reads.guarded (Reads.lift rfl) (Reads.checkedLeft (fun rest => ?_) ?_)
  · rw [decide_eq_true_eq, List.length_append, size]
    exact Nat.le_add_right _ _
  · refine (reads_mapM ?_).checked (Reads.pure p)
    exact rounds.imp fun _ _ same => reads_layer field same

theorem canonical_sumcheckProof (field : LawfulField f) {rest : Bytes}
    (ran : (SumcheckProof.read f geometry).run bytes = .ok (p, rest)) :
    ∃ w, p.write f geometry = .ok w ∧ bytes = w ++ rest := by
  obtain ⟨count, _, counting, ran⟩ := reader_bind_eq_ok.mp ran
  obtain ⟨size, _, sizing, ran⟩ := reader_bind_eq_ok.mp ran
  obtain ⟨_, _, enough, ran⟩ := reader_bind_eq_ok.mp ran
  obtain ⟨layers, _, readLayers, ran⟩ := reader_bind_eq_ok.mp ran
  obtain ⟨rfl, rfl⟩ := reader_pure_eq_ok.mp ran
  obtain ⟨counted, rfl⟩ := reader_lift_eq_ok.mp counting
  obtain ⟨_, rfl⟩ := reader_lift_eq_ok.mp sizing
  obtain ⟨_, rfl⟩ := checkLeft_eq_ok.mp enough
  obtain ⟨rounds, rfl⟩ := canonical_mapM (canonical_layer field) _ readLayers
  exact ⟨_, SumcheckProof.write_eq_ok.mpr ⟨⟨rounds, count, counted⟩, rfl⟩, rfl⟩

end Longfellow.SumcheckV2
