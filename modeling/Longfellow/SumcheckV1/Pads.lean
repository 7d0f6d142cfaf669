/-
**Pads of the v1 sumcheck and where they are committed** (`runtime/sumcheck-v1/src/pad.rs`,
`runtime/proto/src/sumcheck_v1.rs`).

The pads are sampled in the order of the rounds, the hands and the evaluations, with the two claim
pads and their product at the end of each layer. The commitment finds a pad through a layout that
computes its position from the geometry alone.

* `laid_sample` — **the layout and the sampler agree**: the slots in order stand at consecutive
  positions and hold the pads as they were sampled.
-/

import Longfellow.Lib.Layout
import Longfellow.Random.Transcript
import Longfellow.SumcheckV1.Symbolic

namespace Longfellow.SumcheckV1

open Lib

variable {ε ρ E : Type}

/-! ### The layout -/

/-- The positions of the pads of one layer. -/
structure LayerPadLayout where
  rounds : List ((Nat × Nat) × (Nat × Nat))
  claims : Nat × Nat × Nat
  deriving DecidableEq, Repr

structure CircuitPadLayout where
  layers : List LayerPadLayout
  deriving DecidableEq, Repr

/-- Four pads a round, two claim pads and their product. -/
def padCount (logw : Nat) : Nat := 4 * logw + 3

/-- The positions of the claim pads of the layers, from `next` on. -/
def claimIndices : List Nat → Nat → Exec ε (List (Nat × Nat × Nat))
  | [], _ => pure []
  | logw :: logws, next => do
    ensure (SaneLogw logw) "assertion failed: sane_logw(logw)"
    let claims := next + padCount logw - 3
    let rest ← claimIndices logws (claims + 3)
    pure ((claims, claims + 1, claims + 2) :: rest)

/-- The positions of one layer from its claims. -/
def layerLayout (logw : Nat) (claims : Nat × Nat × Nat) : LayerPadLayout :=
  let start := claims.1 - 4 * logw
  ⟨(List.range logw).map fun round =>
    ((start + 4 * round, start + 4 * round + 1), (start + 4 * round + 2, start + 4 * round + 3)),
   claims⟩

/-- The positions of all pads, from `base` on. -/
def padLayout (geometry : SumcheckProofGeometry) (base : Nat) : Exec ε CircuitPadLayout := do
  let claims ← claimIndices geometry.logwLayers base
  pure ⟨List.zipWith layerLayout geometry.logwLayers claims⟩

/-! ### The sampler -/

variable [CommRing E] (rng : RandomEngine ρ E) {logw : Nat}

/-- Sample the pads of the rounds of a layer, and list them in order. -/
def sampleRounds : Nat → ρ → (List (RoundPoly E) × List (RoundPoly E) × List E) × ρ
  | 0, r => (([], [], []), r)
  | logw + 1, r =>
    let (a0, r) := rng.eltField r
    let (a2, r) := rng.eltField r
    let (b0, r) := rng.eltField r
    let (b2, r) := rng.eltField r
    let ((hp0, hp1, witness), r) := sampleRounds logw r
    ((⟨(a0, a2)⟩ :: hp0, ⟨(b0, b2)⟩ :: hp1, a0 :: a2 :: b0 :: b2 :: witness), r)

/-- Sample the pads of a layer. -/
def sampleLayer (logw : Nat) (r : ρ) : (LayerProof E × List E) × ρ :=
  let ((hp0, hp1, witness), r) := sampleRounds rng logw r
  let (r0, r) := rng.eltField r
  let (r1, r) := rng.eltField r
  ((⟨(hp0, hp1), (r0, r1)⟩, witness ++ [r0, r1, r0 * r1]), r)

def sampleLayers : List Nat → ρ → (List (LayerProof E) × List E) × ρ
  | [], r => (([], []), r)
  | logw :: logws, r =>
    let ((pad, witness), r) := sampleLayer rng logw r
    let ((pads, rest), r) := sampleLayers logws r
    ((pad :: pads, witness ++ rest), r)

/-- Sample the pads of a proof and the witness that commits to them. -/
def sample (geometry : SumcheckProofGeometry) (r : ρ) : (SumcheckProof E × List E) × ρ :=
  let ((layers, witness), r) := sampleLayers rng geometry.logwLayers r
  ((⟨layers⟩, witness), r)

/-! ### Slots -/

/-- A committed value of a layer. -/
inductive LayerSlot where
  | round (round : Nat) (hand : Hand) (evaluation : Nat)
  | endpoint (endpoint : Hand)
  | product
  deriving DecidableEq, Repr

/-- The slots of the rounds from `round` on. -/
def roundSlots : Nat → Nat → List LayerSlot
  | _, 0 => []
  | round, logw + 1 => .round round .right 0 :: .round round .right 1 :: .round round .left 0 ::
      .round round .left 1 :: roundSlots (round + 1) logw

/-- The slots of a layer in the order of the commitment. -/
def layerSlots (logw : Nat) : List LayerSlot :=
  roundSlots 0 logw ++ [.endpoint .right, .endpoint .left, .product]

/-- The position of a slot. -/
def LayerPadLayout.position (layout : LayerPadLayout) : LayerSlot → Option Nat
  | .round round hand evaluation =>
    layout.rounds[round]?.bind fun coordinates => slotOf (hand.get coordinates) evaluation
  | .endpoint endpoint => some (endpoint.get (layout.claims.1, layout.claims.2.1))
  | .product => some layout.claims.2.2

/-- The value of a slot. -/
def LayerProof.slotValue (pad : LayerProof E) : LayerSlot → Option E
  | .round round hand evaluation =>
    (hand.get pad.hp)[round]?.bind fun poly => slotOf poly.evaluations evaluation
  | .endpoint endpoint => some (endpoint.get pad.claims)
  | .product => some (pad.claims.1 * pad.claims.2)

/-- The slot of a pad. -/
def Pad.slot : Pad → Nat × LayerSlot
  | .round layer i hand evaluation => (layer, .round i hand evaluation)
  | .endpoint layer hand => (layer, .endpoint hand)

/-- The position of a slot of a circuit. -/
def CircuitPadLayout.position (layout : CircuitPadLayout) (slot : Nat × LayerSlot) : Option Nat :=
  layout.layers[slot.1]?.bind (·.position slot.2)

/-- The value of a slot of a circuit. -/
def SumcheckProof.slotValue (pads : SumcheckProof E) (slot : Nat × LayerSlot) : Option E :=
  pads.layers[slot.1]?.bind (·.slotValue slot.2)

theorem padValue_eq_slotValue (pads : SumcheckProof E) (pad : Pad) :
    padValue pads pad = pads.slotValue pad.slot := by
  cases pad <;> rfl

/-! ### One layer -/

theorem mem_roundSlots {round evaluation : Nat} {hand : Hand} (start : Nat) (low : start ≤ round)
    (high : round < start + logw) (small : evaluation < 2) :
    .round round hand evaluation ∈ roundSlots start logw := by
  induction logw generalizing start with
  | zero => omega
  | succ logw ih =>
    by_cases same : round = start
    · subst same
      have : evaluation = 0 ∨ evaluation = 1 := by omega
      rcases this with rfl | rfl <;> cases hand <;> simp [roundSlots]
    · have later := ih (start + 1) (by omega) (by omega)
      simp [roundSlots, later]

theorem positions_rounds {layout : LayerPadLayout} {start total : Nat}
    (rounds : layout.rounds = (List.range total).map fun round =>
      ((start + 4 * round, start + 4 * round + 1), (start + 4 * round + 2, start + 4 * round + 3)))
    (first : Nat) (bound : first + logw ≤ total) :
    (roundSlots first logw).map layout.position =
      (List.range' (start + 4 * first) (4 * logw)).map some := by
  induction logw generalizing first with
  | zero => rfl
  | succ logw ih =>
    have here : layout.rounds[first]? = some ((start + 4 * first, start + 4 * first + 1),
        (start + 4 * first + 2, start + 4 * first + 3)) := by
      rw [rounds, List.getElem?_map, List.getElem?_range (by omega)]
      rfl
    have count : 4 * (logw + 1) = 4 * logw + 1 + 1 + 1 + 1 := by omega
    have next : start + 4 * (first + 1) = start + 4 * first + 1 + 1 + 1 + 1 := by omega
    have later := ih (first + 1) (by omega)
    rw [next] at later
    simp only [roundSlots, List.map_cons, later, count, List.range'_succ, LayerPadLayout.position,
      here, Option.bind_some, Hand.get, slotOf]

theorem values_rounds {r r' : ρ} {hp0 hp1 : List (RoundPoly E)} {chunk : List E}
    {pad : LayerProof E} (first : Nat) (sampled : sampleRounds rng logw r = ((hp0, hp1, chunk), r'))
    (right : pad.hp.1.drop first = hp0) (left : pad.hp.2.drop first = hp1) :
    (roundSlots first logw).map pad.slotValue = chunk.map some := by
  induction logw generalizing first r hp0 hp1 chunk with
  | zero =>
    obtain ⟨⟨rfl, rfl, rfl⟩, rfl⟩ : ([] = hp0 ∧ [] = hp1 ∧ [] = chunk) ∧ r = r' := by
      simpa [sampleRounds] using sampled
    rfl
  | succ logw ih =>
    simp only [sampleRounds, Prod.mk.injEq] at sampled
    obtain ⟨⟨rfl, rfl, rfl⟩, rfl⟩ := sampled
    obtain ⟨isRight, restRight⟩ := of_drop_eq_cons right
    obtain ⟨isLeft, restLeft⟩ := of_drop_eq_cons left
    have later := ih (first + 1) rfl restRight restLeft
    simp only [roundSlots, List.map_cons, later, LayerProof.slotValue, Hand.get, isRight, isLeft,
      Option.bind_some, slotOf]

omit [CommRing E] in
theorem length_sampleRounds (logw : Nat) (r : ρ) :
    (sampleRounds rng logw r).1.1.length = logw ∧ (sampleRounds rng logw r).1.2.1.length = logw ∧
      (sampleRounds rng logw r).1.2.2.length = 4 * logw := by
  induction logw generalizing r with
  | zero => exact ⟨rfl, rfl, rfl⟩
  | succ logw ih =>
    simp only [sampleRounds, List.length_cons]
    obtain ⟨h0, h1, w⟩ := ih (rng.eltField (rng.eltField (rng.eltField (rng.eltField r).2).2).2).2
    refine ⟨by rw [h0], by rw [h1], by rw [w]; omega⟩

theorem rounds_sampleLayer (logw : Nat) (r : ρ) :
    (sampleLayer rng logw r).1.1.Rounds logw ∧
      (sampleLayer rng logw r).1.2.length = padCount logw := by
  obtain ⟨h0, h1, w⟩ := length_sampleRounds rng logw r
  refine ⟨⟨h0, h1⟩, ?_⟩
  simp [sampleLayer, w, padCount]

theorem mem_layerSlots {slot : LayerSlot}
    (round : ∀ {i hand evaluation}, slot = .round i hand evaluation → i < logw ∧ evaluation < 2) :
    slot ∈ layerSlots logw := by
  rw [layerSlots, List.mem_append]
  cases slot with
  | round i hand evaluation =>
    obtain ⟨inside, small⟩ := round rfl
    exact .inl (mem_roundSlots 0 (Nat.zero_le i) (by omega) small)
  | endpoint endpoint => cases endpoint <;> simp
  | product => simp

/-- **One layer**: its slots stand where the layout says and hold what was sampled. -/
theorem laid_sampleLayer (logw base : Nat) (r : ρ) :
    Laid (layerSlots logw)
      (layerLayout logw (base + padCount logw - 3, base + padCount logw - 3 + 1,
        base + padCount logw - 3 + 2)).position
      (sampleLayer rng logw r).1.1.slotValue base (sampleLayer rng logw r).1.2 := by
  obtain ⟨⟨right, left⟩, count⟩ := rounds_sampleLayer rng logw r
  have start : base + padCount logw - 3 = base + 4 * logw := by
    rw [padCount]
    omega
  rw [start]
  set layout := layerLayout logw (base + 4 * logw, base + 4 * logw + 1, base + 4 * logw + 2)
    with layout_eq
  have rounds : layout.rounds = (List.range logw).map fun round =>
      ((base + 4 * round, base + 4 * round + 1), (base + 4 * round + 2, base + 4 * round + 3)) := by
    simp [layout_eq, layerLayout]
  refine ⟨?_, ?_, ?_, ?_⟩
  · rw [layerSlots, List.map_append, positions_rounds rounds 0 (Nat.zero_add logw).le, count, padCount,
      Nat.mul_zero, Nat.add_zero, ← List.range'_append_1, List.map_append]
    rfl
  · have sampled : (roundSlots 0 logw).map (sampleLayer rng logw r).1.1.slotValue =
        (sampleRounds rng logw r).1.2.2.map some := values_rounds rng 0 rfl rfl rfl
    rw [layerSlots, List.map_append, sampled]
    simp [sampleLayer, LayerProof.slotValue, Hand.get]
  · intro slot i located
    refine mem_layerSlots ?_
    rintro round hand evaluation rfl
    have bounds := bounds_of_lookup located
    rwa [rounds, List.length_map, List.length_range] at bounds
  · intro slot v valued
    refine mem_layerSlots ?_
    rintro round hand evaluation rfl
    have size : (hand.get (sampleLayer rng logw r).1.1.hp).length = logw := by
      cases hand
      · exact right
      · exact left
    have bounds := bounds_of_lookup valued
    rwa [size] at bounds

/-! ### The whole proof -/

theorem laidLayers_sample {logws : List Nat} (base : Nat) (r : ρ)
    (sane : ∀ logw ∈ logws, SaneLogw logw) :
    ∃ claims, (claimIndices logws base : Exec ε _) = .ok claims ∧
      LaidLayers LayerPadLayout.position LayerProof.slotValue base (logws.map layerSlots)
        (List.zipWith layerLayout logws claims) (sampleLayers rng logws r).1.1
        (sampleLayers rng logws r).1.2 := by
  induction logws generalizing base r with
  | nil => exact ⟨[], rfl, .nil base⟩
  | cons logw logws ih =>
    obtain ⟨here, others⟩ := List.forall_mem_cons.mp sane
    obtain ⟨_, count⟩ := rounds_sampleLayer rng logw r
    have next : base + padCount logw - 3 + 3 = base + (sampleLayer rng logw r).1.2.length := by
      rw [count, padCount]
      omega
    obtain ⟨claims, ran, later⟩ := ih (base + (sampleLayer rng logw r).1.2.length)
      (sampleLayer rng logw r).2 others
    refine ⟨(base + padCount logw - 3, base + padCount logw - 3 + 1,
      base + padCount logw - 3 + 2) :: claims, ?_, ?_⟩
    · simp only [claimIndices, ensure_of here, ok_bind, next, ran, pure_eq_ok]
    · exact .cons (laid_sampleLayer rng logw base r) later

theorem rounds_sample (logws : List Nat) (r : ρ) :
    List.Forall₂ (fun logw (layer : LayerProof E) => layer.Rounds logw) logws
      (sampleLayers rng logws r).1.1 := by
  induction logws generalizing r with
  | nil => exact .nil
  | cons logw logws ih => exact .cons (rounds_sampleLayer rng logw r).1 (ih _)

/-- **The layout and the sampler agree.** -/
theorem laid_sample {geometry : SumcheckProofGeometry} (base : Nat) (r : ρ)
    (sane : ∀ logw ∈ geometry.logwLayers, SaneLogw logw) :
    ∃ layout, (padLayout geometry base : Exec ε _) = .ok layout ∧
      layout.layers.length = geometry.logwLayers.length ∧
      Laid (layeredSlots 0 (geometry.logwLayers.map layerSlots)) layout.position
        (sample rng geometry r).1.1.slotValue base (sample rng geometry r).1.2 := by
  obtain ⟨claims, ran, laid⟩ := laidLayers_sample (ε := ε) rng base r sane
  refine ⟨⟨List.zipWith layerLayout geometry.logwLayers claims⟩, ?_, ?_, ?_⟩
  · rw [padLayout, ran, ok_bind, pure_eq_ok]
  · rw [laid.length_layouts, List.length_map]
  · have all := laid.laid 0
    rwa [layered_zero, layered_zero] at all

end Longfellow.SumcheckV1
