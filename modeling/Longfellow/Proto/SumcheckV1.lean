/-
**The v1 sumcheck proof** (`runtime/proto/src/sumcheck_v1.rs`): the messages of the rounds for each
hand and two claims per layer, with the number of rounds fixed by the geometry.

* `SumcheckProof.Shaped`, `SumcheckProof.validate_eq_ok` — the proofs that the validation accepts.
-/

import Longfellow.Circuit.Basic

namespace Longfellow.SumcheckV1

open Lib

/-- The two operands of a product: hand 0 is the right one, hand 1 the left one. -/
inductive Hand where
  | right
  | left
  deriving DecidableEq, Repr

namespace Hand

variable {α : Type}

/-- The other hand. -/
def other : Hand → Hand
  | right => left
  | left => right

/-- The entry of a hand. -/
def get (hand : Hand) (pair : α × α) : α :=
  match hand with
  | right => pair.1
  | left => pair.2

/-- Replace the entry of a hand. -/
def set (hand : Hand) (pair : α × α) (a : α) : α × α :=
  match hand with
  | right => (a, pair.2)
  | left => (pair.1, a)

@[simp] theorem other_other (hand : Hand) : hand.other.other = hand := by cases hand <;> rfl

@[simp] theorem get_set (hand : Hand) (pair : α × α) (a : α) : hand.get (hand.set pair a) = a := by
  cases hand <;> rfl

@[simp] theorem get_other_set (hand : Hand) (pair : α × α) (a : α) :
    hand.other.get (hand.set pair a) = hand.other.get pair := by cases hand <;> rfl

end Hand

/-- The values of a round polynomial at zero and at the third interpolation point. -/
structure RoundPoly (E : Type) where
  evaluations : E × E
  deriving DecidableEq, Repr

/-- The messages of one layer: its rounds for each hand and its two final claims. -/
structure LayerProof (E : Type) where
  hp : List (RoundPoly E) × List (RoundPoly E)
  claims : E × E
  deriving DecidableEq, Repr

structure SumcheckProof (E : Type) where
  layers : List (LayerProof E)
  deriving DecidableEq, Repr

/-- The number of rounds of each layer. -/
structure SumcheckProofGeometry where
  logwLayers : List Nat
  deriving DecidableEq, Repr

variable {E : Type}

/-- The geometry of the proofs of a circuit. -/
def SumcheckProofGeometry.fromCircuit (raw : RawCircuit E) : SumcheckProofGeometry :=
  ⟨raw.layers.map Layer.logw⟩

/-- Count one layer's elements: four evaluations a round and two claims. -/
def addElements (total logw : Nat) : Exec IoError Nat := do
  check (SaneLogw logw) (invalidData "sumcheck logw exceeds MAX_LOGW")
  match checkedAdd total (4 * logw + 2) with
  | some sum => pure sum
  | none => raise (invalidData "sumcheck size overflow")

/-- The number of transmitted elements. -/
def SumcheckProofGeometry.serializedElements (geometry : SumcheckProofGeometry) :
    Exec IoError Nat := geometry.logwLayers.foldlM addElements 0

/-- Whether a layer has `logw` rounds for each hand. -/
def LayerProof.hasRounds (layer : LayerProof E) (logw : Nat) : Bool :=
  layer.hp.1.length == logw && layer.hp.2.length == logw

/-- Check the shape of a proof. -/
def SumcheckProof.validate (p : SumcheckProof E) (geometry : SumcheckProofGeometry) :
    Exec IoError Unit := do
  check (¬(p.layers.length ≠ geometry.logwLayers.length ∨
    ¬(p.layers.zip geometry.logwLayers).all fun pair => pair.1.hasRounds pair.2))
    (invalidData "sumcheck shape mismatch")
  let _ ← geometry.serializedElements
  pure ()

/-! ### The geometry -/

/-- The rounds of a layer for both hands. -/
def LayerProof.Rounds (layer : LayerProof E) (logw : Nat) : Prop :=
  layer.hp.1.length = logw ∧ layer.hp.2.length = logw

/-- A proof of the shape of the geometry. -/
structure SumcheckProof.Shaped (p : SumcheckProof E) (geometry : SumcheckProofGeometry) : Prop where
  rounds : List.Forall₂ (fun logw (layer : LayerProof E) => layer.Rounds logw)
    geometry.logwLayers p.layers
  elements : ∃ count, geometry.serializedElements = .ok count

theorem forall₂_rounds {layers : List (LayerProof E)} {logws : List Nat} :
    (layers.length = logws.length ∧
      (layers.zip logws).all (fun pair => pair.1.hasRounds pair.2) = true) ↔
      List.Forall₂ (fun logw (layer : LayerProof E) => layer.Rounds logw) logws layers :=
  (forall₂_of_zip_all (r := LayerProof.hasRounds)).trans (by
    simp only [LayerProof.hasRounds, Bool.and_eq_true, beq_iff_eq, LayerProof.Rounds])

theorem SumcheckProof.validate_eq_ok {p : SumcheckProof E} {geometry : SumcheckProofGeometry}
    {u : Unit} : p.validate geometry = .ok u ↔ p.Shaped geometry := by
  simp only [SumcheckProof.validate, bind_eq_ok, check_eq_ok, pure_eq_ok]
  constructor
  · rintro ⟨_, shape, count, counted, _⟩
    push Not at shape
    exact ⟨forall₂_rounds.mp shape, count, counted⟩
  · rintro ⟨rounds, count, counted⟩
    refine ⟨(), ?_, count, counted, trivial⟩
    push Not
    exact forall₂_rounds.mpr rounds

theorem sane_of_foldlM {logws : List Nat} {start count : Nat}
    (counted : logws.foldlM addElements start = .ok count) : ∀ logw ∈ logws, SaneLogw logw :=
  forall_of_foldlM_check (fun _ _ => rfl) counted

theorem SumcheckProof.Shaped.sane {p : SumcheckProof E} {raw : RawCircuit E}
    (shaped : p.Shaped (.fromCircuit raw)) : ∀ layer ∈ raw.layers, SaneLogw layer.logw := by
  obtain ⟨count, counted⟩ := shaped.elements
  intro layer member
  exact sane_of_foldlM counted _ (List.mem_map_of_mem member)

end Longfellow.SumcheckV1
