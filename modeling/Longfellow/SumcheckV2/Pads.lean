/-
**Pads of the v2 sumcheck and where they are committed** (`runtime/sumcheck-v2/src/prover.rs`,
`runtime/proto/src/sumcheck_v2.rs`).

Two pads a round, in the order of the rounds, then the two claim pads of the layer and their product.

* `laid_samplePads` — **the layout and the sampler agree.**
-/

import Longfellow.Lib.Layout
import Longfellow.Random.Transcript
import Longfellow.SumcheckV2.Symbolic

namespace Longfellow.SumcheckV2

open Lib

variable {ε ρ E : Type}

/-! ### The layout -/

/-- The positions of the pads of one layer. -/
structure LayerPadLayout where
  rounds : List (Nat × Nat)
  claims : Nat × Nat × Nat
  deriving DecidableEq, Repr

structure CircuitPadLayout where
  layers : List LayerPadLayout
  deriving DecidableEq, Repr

/-- Two pads a round, two claim pads and their product. -/
def padCount (logw : Nat) : Exec ε Nat := do
  ensure (SaneLogw logw) "sumcheck logw exceeds MAX_LOGW"
  pure (2 * logw + 3)

/-- The positions of the claim pads of the layers, from `next` on. -/
def claimIndices : List Nat → Nat → Exec ε (List (Nat × Nat × Nat))
  | [], _ => pure []
  | logw :: logws, next => do
    ensure (SaneLogw logw) "assertion failed: sane_logw(logw)"
    let count ← padCount logw
    let claims := next + count - 3
    let rest ← claimIndices logws (claims + 3)
    pure ((claims, claims + 1, claims + 2) :: rest)

/-- The positions of one layer from its claims. -/
def layerLayout (logw : Nat) (claims : Nat × Nat × Nat) : LayerPadLayout :=
  let start := claims.1 - 2 * logw
  ⟨(List.range logw).map fun round => (start + 2 * round, start + 2 * round + 1), claims⟩

/-- The positions of all pads, from `base` on. -/
def padLayout (geometry : SumcheckProofGeometry) (base : Nat) : Exec ε CircuitPadLayout := do
  let claims ← claimIndices geometry.logwLayers base
  pure ⟨List.zipWith layerLayout geometry.logwLayers claims⟩

/-! ### The sampler -/

variable [CommRing E] (rng : RandomEngine ρ E)

/-- Sample the pads of the rounds of a layer, and list them in order. -/
def sampleRounds : Nat → ρ → (List (RoundPoly E) × List E) × ρ
  | 0, r => (([], []), r)
  | logw + 1, r =>
    let (p0, r) := rng.eltField r
    let (p1, r) := rng.eltField r
    let ((rounds, witness), r) := sampleRounds logw r
    ((⟨(p0, p1)⟩ :: rounds, p0 :: p1 :: witness), r)

/-- Sample the pads of a layer. -/
def sampleLayer (logw : Nat) (r : ρ) : (LayerProof E × List E) × ρ :=
  let ((rounds, witness), r) := sampleRounds rng logw r
  let (pA, r) := rng.eltField r
  let (pB, r) := rng.eltField r
  ((⟨rounds, (pA, pB)⟩, witness ++ [pA, pB, pA * pB]), r)

def sampleLayers : List Nat → ρ → (List (LayerProof E) × List E) × ρ
  | [], r => (([], []), r)
  | logw :: logws, r =>
    let ((pad, witness), r) := sampleLayer rng logw r
    let ((pads, rest), r) := sampleLayers logws r
    ((pad :: pads, witness ++ rest), r)

/-- Sample the pads of a proof and the witness that commits to them; the count that sizes the
witness checks the geometry. -/
def samplePads (geometry : SumcheckProofGeometry) (r : ρ) :
    Exec ε ((SumcheckProof E × List E) × ρ) := do
  let _ ← geometry.logwLayers.mapM (padCount (ε := ε))
  let ((layers, witness), r) := sampleLayers rng geometry.logwLayers r
  pure ((⟨layers⟩, witness), r)

/-! ### Slots -/

/-- A committed value of a layer. -/
inductive LayerSlot where
  | round (round slot : Nat)
  | claim (slot : Nat)
  | product
  deriving DecidableEq, Repr

/-- The slots of the rounds from `round` on. -/
def roundSlots : Nat → Nat → List LayerSlot
  | _, 0 => []
  | round, logw + 1 => .round round 0 :: .round round 1 :: roundSlots (round + 1) logw

/-- The slots of a layer in the order of the commitment. -/
def layerSlots (logw : Nat) : List LayerSlot :=
  roundSlots 0 logw ++ [.claim 0, .claim 1, .product]

/-- The position of a slot. -/
def LayerPadLayout.position (layout : LayerPadLayout) : LayerSlot → Option Nat
  | .round round slot => layout.rounds[round]?.bind fun coordinates => slotOf coordinates slot
  | .claim slot => slotOf (layout.claims.1, layout.claims.2.1) slot
  | .product => some layout.claims.2.2

/-- The value of a slot. -/
def LayerProof.slotValue (pad : LayerProof E) : LayerSlot → Option E
  | .round round slot => pad.rounds[round]?.bind fun poly => slotOf poly.coefficients slot
  | .claim slot => slotOf pad.claims slot
  | .product => some (pad.claims.1 * pad.claims.2)

/-- The slot of a pad. -/
def Pad.slot : Pad → Nat × LayerSlot
  | .round layer i slot => (layer, .round i slot)
  | .claim layer slot => (layer, .claim slot)

/-- The position of a slot of a circuit. -/
def CircuitPadLayout.position (layout : CircuitPadLayout) (slot : Nat × LayerSlot) : Option Nat :=
  layout.layers[slot.1]?.bind (·.position slot.2)

/-- The value of a slot of a circuit. -/
def SumcheckProof.slotValue (pads : SumcheckProof E) (slot : Nat × LayerSlot) : Option E :=
  pads.layers[slot.1]?.bind (·.slotValue slot.2)

theorem padValue_eq_slotValue (pads : SumcheckProof E) (pad : Pad) :
    padValue pads pad = pads.slotValue pad.slot := by
  cases pad <;> rfl

/-! ### One layer -/

variable {logw : Nat}

theorem mem_roundSlots {round slot : Nat} (start : Nat) (low : start ≤ round)
    (high : round < start + logw) (small : slot < 2) :
    .round round slot ∈ roundSlots start logw := by
  induction logw generalizing start with
  | zero => omega
  | succ logw ih =>
    by_cases same : round = start
    · subst same
      have : slot = 0 ∨ slot = 1 := by omega
      rcases this with rfl | rfl <;> simp [roundSlots]
    · have later := ih (start + 1) (by omega) (by omega)
      simp [roundSlots, later]

theorem positions_rounds {layout : LayerPadLayout} {start total : Nat}
    (rounds : layout.rounds = (List.range total).map fun round =>
      (start + 2 * round, start + 2 * round + 1)) (first : Nat) (bound : first + logw ≤ total) :
    (roundSlots first logw).map layout.position =
      (List.range' (start + 2 * first) (2 * logw)).map some := by
  induction logw generalizing first with
  | zero => rfl
  | succ logw ih =>
    have here : layout.rounds[first]? = some (start + 2 * first, start + 2 * first + 1) := by
      rw [rounds, List.getElem?_map, List.getElem?_range (by omega)]
      rfl
    have count : 2 * (logw + 1) = 2 * logw + 1 + 1 := by omega
    have next : start + 2 * (first + 1) = start + 2 * first + 1 + 1 := by omega
    have later := ih (first + 1) (by omega)
    rw [next] at later
    simp only [roundSlots, List.map_cons, later, count, List.range'_succ, LayerPadLayout.position,
      here, Option.bind_some, slotOf]

theorem values_rounds {r r' : ρ} {rounds : List (RoundPoly E)} {chunk : List E} {pad : LayerProof E}
    (first : Nat) (sampled : sampleRounds rng logw r = ((rounds, chunk), r'))
    (left : pad.rounds.drop first = rounds) :
    (roundSlots first logw).map pad.slotValue = chunk.map some := by
  induction logw generalizing first r rounds chunk with
  | zero =>
    obtain ⟨⟨rfl, rfl⟩, rfl⟩ : ([] = rounds ∧ [] = chunk) ∧ r = r' := by
      simpa [sampleRounds] using sampled
    rfl
  | succ logw ih =>
    simp only [sampleRounds, Prod.mk.injEq] at sampled
    obtain ⟨⟨rfl, rfl⟩, rfl⟩ := sampled
    obtain ⟨isRound, rest⟩ := of_drop_eq_cons left
    have later := ih (first + 1) rfl rest
    simp only [roundSlots, List.map_cons, later, LayerProof.slotValue, isRound, Option.bind_some,
      slotOf]

omit [CommRing E] in
theorem length_sampleRounds (logw : Nat) (r : ρ) :
    (sampleRounds rng logw r).1.1.length = logw ∧
      (sampleRounds rng logw r).1.2.length = 2 * logw := by
  induction logw generalizing r with
  | zero => exact ⟨rfl, rfl⟩
  | succ logw ih =>
    simp only [sampleRounds, List.length_cons]
    obtain ⟨rounds, chunk⟩ := ih (rng.eltField (rng.eltField r).2).2
    exact ⟨by rw [rounds], by rw [chunk]; omega⟩

theorem rounds_sampleLayer (logw : Nat) (r : ρ) :
    (sampleLayer rng logw r).1.1.rounds.length = logw ∧
      (sampleLayer rng logw r).1.2.length = 2 * logw + 3 := by
  obtain ⟨rounds, chunk⟩ := length_sampleRounds rng logw r
  exact ⟨rounds, by simp [sampleLayer, chunk]⟩

theorem mem_layerSlots {slot : LayerSlot} (round : ∀ {i j}, slot = .round i j → i < logw ∧ j < 2)
    (claim : ∀ {j}, slot = .claim j → j < 2) : slot ∈ layerSlots logw := by
  rw [layerSlots, List.mem_append]
  cases slot with
  | round i j =>
    obtain ⟨inside, small⟩ := round rfl
    exact .inl (mem_roundSlots 0 (Nat.zero_le i) (by omega) small)
  | claim j =>
    have : j = 0 ∨ j = 1 := by have := claim rfl; omega
    rcases this with rfl | rfl <;> simp
  | product => simp

/-- **One layer**: its slots stand where the layout says and hold what was sampled. -/
theorem laid_sampleLayer (logw base : Nat) (r : ρ) :
    Laid (layerSlots logw)
      (layerLayout logw (base + 2 * logw, base + 2 * logw + 1, base + 2 * logw + 2)).position
      (sampleLayer rng logw r).1.1.slotValue base (sampleLayer rng logw r).1.2 := by
  obtain ⟨size, count⟩ := rounds_sampleLayer rng logw r
  set layout := layerLayout logw (base + 2 * logw, base + 2 * logw + 1, base + 2 * logw + 2)
    with layout_eq
  have rounds : layout.rounds = (List.range logw).map fun round =>
      (base + 2 * round, base + 2 * round + 1) := by
    simp [layout_eq, layerLayout]
  refine ⟨?_, ?_, ?_, ?_⟩
  · rw [layerSlots, List.map_append, positions_rounds rounds 0 (Nat.zero_add logw).le, count,
      Nat.mul_zero, Nat.add_zero, ← List.range'_append_1, List.map_append]
    rfl
  · have sampled : (roundSlots 0 logw).map (sampleLayer rng logw r).1.1.slotValue =
        (sampleRounds rng logw r).1.2.map some := values_rounds rng 0 rfl rfl
    rw [layerSlots, List.map_append, sampled]
    simp [sampleLayer, LayerProof.slotValue, slotOf]
  · intro slot i located
    refine mem_layerSlots ?_ ?_
    · rintro round j rfl
      have bounds := bounds_of_lookup located
      rwa [rounds, List.length_map, List.length_range] at bounds
    · rintro j rfl
      exact lt_of_slotOf located
  · intro slot v valued
    refine mem_layerSlots ?_ ?_
    · rintro round j rfl
      have bounds := bounds_of_lookup valued
      rwa [size] at bounds
    · rintro j rfl
      exact lt_of_slotOf valued

/-! ### The whole proof -/

theorem laidLayers_samplePads {logws : List Nat} (base : Nat) (r : ρ)
    (sane : ∀ logw ∈ logws, SaneLogw logw) :
    ∃ claims, (claimIndices logws base : Exec ε _) = .ok claims ∧
      LaidLayers LayerPadLayout.position LayerProof.slotValue base (logws.map layerSlots)
        (List.zipWith layerLayout logws claims) (sampleLayers rng logws r).1.1
        (sampleLayers rng logws r).1.2 := by
  induction logws generalizing base r with
  | nil => exact ⟨[], rfl, .nil base⟩
  | cons logw logws ih =>
    obtain ⟨here, others⟩ := List.forall_mem_cons.mp sane
    obtain ⟨_, count⟩ := rounds_sampleLayer rng logw r
    have first : base + (2 * logw + 3) - 3 = base + 2 * logw := by omega
    have next : base + 2 * logw + 3 = base + (sampleLayer rng logw r).1.2.length := by
      rw [count]
      omega
    obtain ⟨claims, ran, later⟩ := ih (base + (sampleLayer rng logw r).1.2.length)
      (sampleLayer rng logw r).2 others
    refine ⟨(base + 2 * logw, base + 2 * logw + 1, base + 2 * logw + 2) :: claims, ?_, ?_⟩
    · simp only [claimIndices, padCount, ensure_of here, ok_bind, pure_eq_ok, first, next, ran]
    · exact .cons (laid_sampleLayer rng logw base r) later

theorem rounds_samplePads (logws : List Nat) (r : ρ) :
    List.Forall₂ (fun logw (layer : LayerProof E) => layer.rounds.length = logw) logws
      (sampleLayers rng logws r).1.1 := by
  induction logws generalizing r with
  | nil => exact .nil
  | cons logw logws ih => exact .cons (rounds_sampleLayer rng logw r).1 (ih _)

/-- **The layout and the sampler agree.** -/
theorem laid_samplePads {geometry : SumcheckProofGeometry} (base : Nat) (r : ρ)
    (sane : ∀ logw ∈ geometry.logwLayers, SaneLogw logw) :
    ∃ layout pads witness r', (padLayout geometry base : Exec ε _) = .ok layout ∧
      samplePads rng geometry r = (.ok ((pads, witness), r') : Exec ε _) ∧
      layout.layers.length = geometry.logwLayers.length ∧
      List.Forall₂ (fun logw (layer : LayerProof E) => layer.rounds.length = logw)
        geometry.logwLayers pads.layers ∧
      Laid (layeredSlots 0 (geometry.logwLayers.map layerSlots)) layout.position
        pads.slotValue base witness := by
  obtain ⟨claims, ran, laid⟩ := laidLayers_samplePads (ε := ε) rng base r sane
  have counted : geometry.logwLayers.mapM (padCount (ε := ε)) =
      .ok (geometry.logwLayers.map fun logw => 2 * logw + 3) :=
    mapM_eq_ok_map fun logw member => by
      rw [padCount, ensure_of (sane logw member), ok_bind, pure_eq_ok]
  refine ⟨⟨List.zipWith layerLayout geometry.logwLayers claims⟩,
    ⟨(sampleLayers rng geometry.logwLayers r).1.1⟩,
    (sampleLayers rng geometry.logwLayers r).1.2, (sampleLayers rng geometry.logwLayers r).2, ?_,
    ?_, ?_, rounds_samplePads rng geometry.logwLayers r, ?_⟩
  · rw [padLayout, ran, ok_bind, pure_eq_ok]
  · rw [samplePads, counted, ok_bind]
    rfl
  · rw [laid.length_layouts, List.length_map]
  · have all := laid.laid 0
    rwa [layered_zero, layered_zero] at all

end Longfellow.SumcheckV2
