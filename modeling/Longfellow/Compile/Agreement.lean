/-
**The schedulers agree up to the order of terms.**

Both schedulers check, number and collect a quad circuit in the same way, and then write the terms
of each layer in an order of their own. The order is a permutation, the encoding as differences is
undone by the expansion of a layer, and the values of a layer do not depend on the order of its
terms.

* `schedulers_agree` — **the two circuits have the same header, the same layers up to the order of
  their terms, and accept the same inputs.**
-/

import Longfellow.Compile.Schedule
import Mathlib.Algebra.Order.BigOperators.Group.List
import Mathlib.Data.List.ReduceOption

set_option linter.unusedSectionVars false

namespace Longfellow.Compile

open Lib

variable {ε E τ : Type} [CommRing E] [DecidableEq E] (f : SerializableField E)

/-! ### The table of deltas -/

theorem dedupExact_spec (deltas : List TermDelta) (d : TermDelta) :
    deltas <+: (dedupExact deltas d).2 ∧ (dedupExact deltas d).2.length ≤ deltas.length + 1 ∧
      (∀ other ∈ (dedupExact deltas d).2, other ∈ deltas ∨ other = d) ∧
      ((dedupExact deltas d).2.length ≤ 2 ^ 32 →
        (dedupExact deltas d).2[(dedupExact deltas d).1.toNat]? = some d) := by
  unfold dedupExact
  cases found : deltas.idxOf? d with
  | some i =>
    refine ⟨List.prefix_rfl, by simp, fun other member => .inl member, fun fits => ?_⟩
    obtain ⟨bound, here, _⟩ := List.idxOf?_eq_some_iff.mp found
    have small : i < 2 ^ 32 := lt_of_lt_of_le bound fits
    rw [UInt32.toNat_ofNat_of_lt' small, List.getElem?_eq_getElem bound, here]
  | none =>
    refine ⟨List.prefix_append .., by simp, fun other member => by simpa using member, ?_⟩
    intro fits
    have small : deltas.length < 2 ^ 32 := by
      simp only [List.length_append, List.length_singleton] at fits
      omega
    rw [UInt32.toNat_ofNat_of_lt' small, List.getElem?_concat_length]

/-- **A run of deltas is read back** through any table that extends the one it leaves. -/
theorem dedupRun_spec (run deltas : List TermDelta) :
    deltas <+: (dedupRun deltas run).2 ∧
      (dedupRun deltas run).2.length ≤ deltas.length + run.length ∧
      (∀ d ∈ (dedupRun deltas run).2, d ∈ deltas ∨ d ∈ run) ∧
      ((dedupRun deltas run).2.length ≤ 2 ^ 32 →
        List.Forall₂ (fun index d => (dedupRun deltas run).2[index.toNat]? = some d)
          (dedupRun deltas run).1 run) := by
  induction run generalizing deltas with
  | nil => exact ⟨List.prefix_rfl, by simp [dedupRun], fun d member => .inl member, fun _ => .nil⟩
  | cons d run ih =>
    obtain ⟨grown, size, members, reads⟩ := dedupExact_spec deltas d
    obtain ⟨grown', size', members', reads'⟩ := ih (dedupExact deltas d).2
    simp only [dedupRun]
    refine ⟨grown.trans grown', by simp only [List.length_cons]; omega, ?_, fun fits => ?_⟩
    · intro other member
      rcases members' other member with before | after
      · rcases members other before with old | rfl
        · exact .inl old
        · exact .inr (List.mem_cons_self ..)
      · exact .inr (List.mem_cons_of_mem _ after)
    · have bound := grown'.length_le
      exact .cons (getElem?_of_prefixed grown' (reads (by omega))) (reads' fits)

/-! ### A layer and its terms -/

/-- The coefficient an index stands for. -/
def decodedConstant (constants : List E) (k : E) : E :=
  constants.getD (UInt32.ofNat (constants.findIdx fun c => f.toBytes c = f.toBytes k)).toNat 0

/-- A term with the coefficient its index stands for. -/
def decoded (constants : List E) (term : Term E) : Term E :=
  ⟨decodedConstant f constants term.k, term.g, term.h0, term.h1⟩

variable {f}

variable {constants : List E}

theorem constantIndex_spec {k : E} {index : UInt32}
    (ran : (constantIndex f constants k : Exec ε UInt32) = .ok index) :
    index = UInt32.ofNat (constants.findIdx fun c => f.toBytes c = f.toBytes k) ∧
      index.toNat < constants.length := by
  unfold constantIndex at ran
  cases found : constants.findIdx? fun c => f.toBytes c = f.toBytes k with
  | none => simp [found, expect, abort] at ran
  | some i =>
    obtain rfl : UInt32.ofNat i = index := by simpa [found, expect] using ran
    obtain ⟨here, rfl⟩ := List.findIdx?_eq_some_iff_findIdx_eq.mp found
    refine ⟨rfl, lt_of_le_of_lt ?_ here⟩
    rw [UInt32.toNat_ofNat']
    exact Nat.mod_le _ _

variable {run : List TermDelta} {terms : List (Term E)}

/-- **Differences are summed up to the terms they were taken from**, up to the coefficients their
indices stand for. -/
theorem termDeltas_spec {prev : Wires}
    (ran : (termDeltas f constants prev terms : Exec ε _) = .ok run) :
    run.length = terms.length ∧ (∀ d ∈ run, d.kIndex.toNat < constants.length) ∧
      (accumulate constants prev run : Exec String _) =
        .ok (terms.map (decoded f constants)) := by
  induction terms generalizing prev run with
  | nil =>
    obtain rfl := Except.ok.inj ran
    exact ⟨rfl, by simp, rfl⟩
  | cons term terms ih =>
    obtain ⟨index, looked, ran⟩ := bind_eq_ok.mp ran
    obtain ⟨rest, later, ran⟩ := bind_eq_ok.mp ran
    obtain rfl := Except.ok.inj ran
    obtain ⟨size, bounds, summed⟩ := ih later
    obtain ⟨eq, bound⟩ := constantIndex_spec looked
    have wires : prev.step ⟨term.g - prev.g, term.h0 - prev.h0, term.h1 - prev.h1, index⟩ =
        term.wires := by
      simp only [Wires.step, Term.wires, UInt32.add_comm prev.g, UInt32.add_comm prev.h0,
        UInt32.add_comm prev.h1, UInt32.sub_add_cancel]
    refine ⟨by rw [List.length_cons, size, List.length_cons], ?_, ?_⟩
    · exact List.forall_mem_cons.mpr ⟨bound, bounds⟩
    · rw [accumulate, wires, summed, getAt_of_lt bound, ok_bind, ok_bind, pure_eq_ok,
        List.map_cons, decoded, decodedConstant, ← eq, List.getD_eq_getElem _ _ bound]
      rfl

theorem length_table (fits : run.length ≤ 2 ^ 32) :
    (dedupRun [] run).2.length ≤ 2 ^ 32 := by
  obtain ⟨_, size, _⟩ := dedupRun_spec run []
  simp only [List.length_nil] at size
  omega

omit [CommRing E] [DecidableEq E] in
/-- **A layer written from a run of deltas** is in range and expands to the run summed up. -/
theorem termsOf_newCompressed (nw logw : Nat)
    (fits : (dedupRun [] run).2.length ≤ 2 ^ 32)
    (bounds : ∀ d ∈ run, d.kIndex.toNat < constants.length)
    (summed : (accumulate constants Wires.zero run : Exec String _) = .ok terms) :
    (newCompressed nw logw [run] [0]).InRange constants.length ∧
      ((newCompressed nw logw [run] [0]).terms constants : Exec String _) = .ok terms := by
  obtain ⟨_, _, members, reads⟩ := dedupRun_spec run []
  have reads := reads fits
  have layer : newCompressed nw logw [run] [0] =
      ⟨nw, logw, (dedupRun [] run).2, [(dedupRun [] run).1], [0]⟩ := rfl
  rw [layer]
  refine ⟨⟨by simp, ?_, ?_⟩, ?_⟩
  · intro segment member index inSegment
    obtain rfl := List.mem_singleton.mp member
    obtain ⟨d, _, found⟩ := exists_of_mem_left reads inSegment
    exact (List.getElem?_eq_some_iff.mp found).1
  · intro d member
    exact bounds d ((members d member).resolve_left (List.not_mem_nil))
  · have looked : ((dedupRun [] run).1.mapM fun d => getAt (dedupRun [] run).2 d.toNat :
        Exec String _) = .ok run :=
      mapM_of_forall₂ (reads.imp fun _ _ found => getAt_eq_ok.mpr found)
    have indices : ((⟨nw, logw, (dedupRun [] run).2, [(dedupRun [] run).1], [0]⟩ :
        Layer).deltaIndices : Exec String _) = .ok (dedupRun [] run).1 := by
      simp [Layer.deltaIndices, getAt]
    rw [Layer.terms, Layer.deltaSequence, indices, ok_bind, looked, ok_bind, summed]

/-- A layer written from some terms: its dimensions, and its terms in some order. -/
structure LayerOf (f : SerializableField E) (constants : List E) (nw : Nat)
    (collected : List (Term E)) (layer : Layer) : Prop where
  width : layer.nw = nw
  logw : (ceilLog2 nw : Exec String Nat) = .ok layer.logw
  indices : layer.InRange constants.length
  terms : ∃ sorted : List (Term E), sorted.Perm collected ∧
    (layer.terms constants : Exec String _) = .ok (sorted.map (decoded f constants))

theorem ceilLog2_eq_ok {δ : Type} {n m : Nat} (ran : (ceilLog2 n : Exec ε Nat) = .ok m) :
    (ceilLog2 n : Exec δ Nat) = .ok m := by
  match n with
  | 0 => simp [ceilLog2] at ran
  | 1 => exact congrArg Except.ok (Except.ok.inj ran)
  | n + 2 => exact congrArg Except.ok (Except.ok.inj ran)

variable {sorted : List (Term E)} {collected : List (List (Term E) × Nat)} {layers : List Layer}
  {layer : Layer}

theorem layerOf_buildLayerV2 {nw logw : Nat}
    (fits : terms.length ≤ 2 ^ 32) (permuted : sorted.Perm terms)
    (log : (ceilLog2 nw : Exec ε Nat) = .ok logw)
    (ran : (buildLayerV2 f constants sorted nw logw : Exec ε _) = .ok layer) :
    LayerOf f constants nw terms layer := by
  obtain ⟨_, _, ran⟩ := bind_eq_ok.mp ran
  obtain ⟨run, differences, ran⟩ := bind_eq_ok.mp ran
  obtain rfl := Except.ok.inj ran
  obtain ⟨size, bounds, summed⟩ := termDeltas_spec differences
  obtain ⟨indices, expands⟩ := termsOf_newCompressed nw logw
    (length_table (by rw [size, permuted.length_eq]; exact fits)) bounds summed
  exact ⟨rfl, ceilLog2_eq_ok log, indices, sorted, permuted, expands⟩

/-- The layer of version 1 is the layer of version 2: reading the run back from its table changes
nothing. -/
theorem buildLayerV1_eq {nw logw : Nat} (fits : sorted.length ≤ 2 ^ 32) :
    (buildLayerV1 f constants sorted nw logw : Exec ε _) =
      buildLayerV2 f constants sorted nw logw := by
  unfold buildLayerV1 buildLayerV2
  refine bind_congr fun _ => ?_
  cases differences : (termDeltas f constants Wires.zero sorted : Exec ε _) with
  | error fault => rfl
  | ok run =>
    obtain ⟨size, _, _⟩ := termDeltas_spec differences
    obtain ⟨_, _, _, reads⟩ := dedupRun_spec run []
    have reads := reads (length_table (by rw [size]; exact fits))
    have unrolled : ((dedupRun [] run).1.mapM fun idx => getAt (dedupRun [] run).2 idx.toNat :
        Exec ε _) = .ok run :=
      mapM_of_forall₂ (reads.imp fun _ _ found => getAt_eq_ok.mpr found)
    simp only [ok_bind, unrolled]

/-! ### The layers of a circuit -/

/-- The layers written from collected ones, from the inputs up. -/
inductive LayersOf (f : SerializableField E) (constants : List E) :
    Nat → List (List (Term E) × Nat) → List Layer → Prop
  | nil {nw} : LayersOf f constants nw [] []
  | cons {nw terms nwires collected layer layers} (head : LayerOf f constants nw terms layer)
      (tail : LayersOf f constants nwires collected layers) :
      LayersOf f constants nw ((terms, nwires) :: collected) (layer :: layers)

theorem layersOf_orderedLayersV1 {nw : Nat} (fits : ∀ layer ∈ collected, layer.1.length ≤ 2 ^ 32)
    (ran : (orderedLayersV1 f constants nw collected : Exec ε _) = .ok layers) :
    LayersOf f constants nw collected layers := by
  induction collected generalizing nw layers with
  | nil =>
    obtain rfl := Except.ok.inj ran
    exact .nil
  | cons first collected ih =>
    obtain ⟨terms, nwires⟩ := first
    obtain ⟨small, fits⟩ := List.forall_mem_cons.mp fits
    obtain ⟨logw, log, ran⟩ := bind_eq_ok.mp ran
    obtain ⟨layer, built, ran⟩ := bind_eq_ok.mp ran
    obtain ⟨rest, later, ran⟩ := bind_eq_ok.mp ran
    obtain rfl := Except.ok.inj ran
    have permuted := List.mergeSort_perm terms fun a b => (compareTerm f a b).isLE
    rw [buildLayerV1_eq (by rw [permuted.length_eq]; exact small)] at built
    exact .cons (layerOf_buildLayerV2 small permuted log built) (ih fits later)

/-- The wires of collected terms are in range. -/
inductive CollectedInRange : Nat → List (List (Term E) × Nat) → Prop
  | nil {nw} : CollectedInRange nw []
  | cons {nw terms nwires collected} (head : ∀ term ∈ terms, term.InRange nw nwires)
      (tail : CollectedInRange nwires collected) :
      CollectedInRange nw ((terms, nwires) :: collected)

variable {knownInputs : List (Option E)} {known : List (Option E)}

theorem propagateConstants_spec {noutput : Nat}
    (ran : (propagateConstants terms knownInputs noutput : Exec ε _) = .ok known) :
    known.length = noutput ∧ ∀ term ∈ terms, term.g.toNat < noutput := by
  refine foldlM_preserves (fun done known => known.length = noutput ∧
    ∀ term ∈ done, term.g.toNat < noutput) ⟨List.length_replicate, by simp⟩ ?_ ran
  intro done term known known' _ ⟨size, bounds⟩ stepped
  obtain ⟨output, found, stepped⟩ := bind_eq_ok.mp stepped
  have bound : term.g.toNat < noutput := by
    rw [← size]
    exact (List.getElem?_eq_some_iff.mp (getAt_eq_ok.mp found)).1
  have all : ∀ other ∈ done ++ [term], other.g.toNat < noutput := by
    intro other member
    rcases List.mem_append.mp member with old | new
    · exact bounds other old
    · exact List.mem_singleton.mp new ▸ bound
  cases output with
  | none =>
    obtain rfl := Except.ok.inj stepped
    exact ⟨size, all⟩
  | some value =>
    obtain ⟨a, _, stepped⟩ := bind_eq_ok.mp stepped
    obtain ⟨b, _, stepped⟩ := bind_eq_ok.mp stepped
    obtain ⟨_, rfl⟩ := setAt_eq_ok.mp stepped
    exact ⟨by rw [List.length_set, size], all⟩

/-- **The order of version 2 is a permutation** of the terms, whose wires are in range. -/
theorem orderLayer_spec {noutput : Nat}
    (ran : (orderLayer f terms knownInputs noutput : Exec ε _) = .ok (sorted, known)) :
    sorted.Perm terms ∧ known.length = noutput ∧
      ∀ term ∈ terms, term.InRange knownInputs.length noutput := by
  obtain ⟨knownOutputs, propagated, ran⟩ := bind_eq_ok.mp ran
  obtain ⟨shaped, kinds, ran⟩ := bind_eq_ok.mp ran
  obtain ⟨rfl, rfl⟩ := Prod.mk.inj (Except.ok.inj ran)
  obtain ⟨size, outputs⟩ := propagateConstants_spec propagated
  have shapes := mapM_eq_ok kinds
  have each : List.Forall₂ (fun term pair => pair.2 = term ∧
      term.h0.toNat < knownInputs.length ∧ term.h1.toNat < knownInputs.length) terms shaped := by
    refine shapes.imp fun term pair ran => ?_
    obtain ⟨shape, found, ran⟩ := bind_eq_ok.mp ran
    obtain rfl := Except.ok.inj ran
    obtain ⟨one0, first, found⟩ := bind_eq_ok.mp found
    obtain ⟨one1, second, _⟩ := bind_eq_ok.mp found
    refine ⟨rfl, ?_, ?_⟩
    · simpa using (List.getElem?_eq_some_iff.mp (getAt_eq_ok.mp first)).1
    · simpa using (List.getElem?_eq_some_iff.mp (getAt_eq_ok.mp second)).1
  have same : terms = shaped.map Prod.snd := by
    rw [← List.forall₂_eq_eq_eq]
    exact List.forall₂_map_right_iff.mpr (each.imp fun _ _ here => here.1.symm)
  refine ⟨?_, size, fun term member => ?_⟩
  · have sorted := (List.mergeSort_perm shaped fun a b => (compareShaped f a b).isLE).map Prod.snd
    rwa [← same] at sorted
  · obtain ⟨_, _, _, first, second⟩ := exists_of_mem_left each member
    exact ⟨first, second, outputs term member⟩

theorem layersOf_orderedLayersV2
    (fits : ∀ layer ∈ collected, layer.1.length ≤ 2 ^ 32)
    (ran : (orderedLayersV2 f constants knownInputs collected : Exec ε _) = .ok layers) :
    LayersOf f constants knownInputs.length collected layers ∧
      CollectedInRange knownInputs.length collected := by
  induction collected generalizing knownInputs layers with
  | nil =>
    obtain rfl := Except.ok.inj ran
    exact ⟨.nil, .nil⟩
  | cons first collected ih =>
    obtain ⟨terms, nwires⟩ := first
    obtain ⟨small, fits⟩ := List.forall_mem_cons.mp fits
    obtain ⟨⟨sorted, known⟩, ordered, ran⟩ := bind_eq_ok.mp ran
    obtain ⟨logw, log, ran⟩ := bind_eq_ok.mp ran
    obtain ⟨layer, built, ran⟩ := bind_eq_ok.mp ran
    obtain ⟨rest, later, ran⟩ := bind_eq_ok.mp ran
    obtain rfl := Except.ok.inj ran
    obtain ⟨permuted, size, inRange⟩ := orderLayer_spec ordered
    obtain ⟨tail, below⟩ := ih fits later
    rw [size] at tail below
    exact ⟨.cons (layerOf_buildLayerV2 small permuted log built) tail, .cons inRange below⟩

/-! ### Ranges and values -/

theorem LayerOf.wiresInRange {nw nwires : Nat} {collected : List (Term E)}
    (written : LayerOf f constants nw collected layer)
    (inRange : ∀ term ∈ collected, term.InRange nw nwires) :
    layer.WiresInRange constants nw nwires := by
  refine ⟨written.indices, fun expands term member => ?_⟩
  obtain ⟨sorted, permuted, expands'⟩ := written.terms
  obtain rfl := Except.ok.inj (expands.symm.trans expands')
  obtain ⟨stored, isSorted, rfl⟩ := List.mem_map.mp member
  obtain ⟨h0, h1, g⟩ := inRange stored (permuted.mem_iff.mp isSorted)
  exact ⟨h0, h1, g⟩

/-- The number of wires of the last of some layers. -/
def lastWidth (nw : Nat) (collected : List (List (Term E) × Nat)) : Nat :=
  (collected.getLast?.map Prod.snd).getD nw

theorem lastWidth_cons (nw : Nat) (first : List (Term E) × Nat)
    (collected : List (List (Term E) × Nat)) :
    lastWidth nw (first :: collected) = lastWidth first.2 collected := by
  cases collected with
  | nil => rfl
  | cons second collected => simp [lastWidth, List.getLast?_cons]

/-- **The layers that are written are in range**, as the layers of the circuit: the outputs
first. -/
theorem LayersOf.layersInRange {ninput nw : Nat}
    {below : List Layer} (written : LayersOf f constants nw collected layers)
    (inRange : CollectedInRange nw collected) (bottom : below = [] → nw = ninput)
    (done : LayersInRange constants ninput nw below) :
    LayersInRange constants ninput (lastWidth nw collected) (layers.reverse ++ below) := by
  induction written generalizing below with
  | nil => exact done
  | @cons nw terms nwires collected layer layers head tail ih =>
    cases inRange with
    | cons here rest =>
      rw [lastWidth_cons, List.reverse_cons, List.append_assoc, List.singleton_append]
      refine ih rest (fun empty => absurd empty (List.cons_ne_nil _ _)) ⟨?_, ?_⟩
      · have width : (if below = [] then ninput else layer.nw) = nw := by
          split
          · rename_i empty
            exact (bottom empty).symm
          · exact head.width
        rw [width]
        exact head.wiresInRange here
      · rw [head.width]
        exact done

/-- Two layers with the same dimensions and the same terms, up to order. -/
structure SameUpToOrder (constants : List E) (layer layer' : Layer) : Prop where
  nw : layer.nw = layer'.nw
  logw : layer.logw = layer'.logw
  terms : ∃ terms terms' : List (Term E), (layer.terms constants : Exec String _) = .ok terms ∧
    (layer'.terms constants : Exec String _) = .ok terms' ∧ terms.Perm terms'

theorem LayersOf.sameUpToOrder {nw : Nat}
    {layers' : List Layer} (written : LayersOf f constants nw collected layers)
    (written' : LayersOf f constants nw collected layers') :
    List.Forall₂ (SameUpToOrder constants) layers layers' := by
  induction written generalizing layers' with
  | nil =>
    cases written'
    exact .nil
  | cons head tail ih =>
    cases written' with
    | cons head' tail' =>
      obtain ⟨sorted, permuted, expands⟩ := head.terms
      obtain ⟨sorted', permuted', expands'⟩ := head'.terms
      refine .cons ⟨head.width.trans head'.width.symm, ?_, _, _, expands, expands', ?_⟩
        (ih tail')
      · exact Except.ok.inj (head.logw.symm.trans head'.logw)
      · exact (permuted.trans permuted'.symm).map _

/-- Terms can be added to the outputs in any order. -/
theorem addTo_comm (w v : List E) (s t : Term E) :
    t.addTo w (s.addTo w v) = s.addTo w (t.addTo w v) := by
  unfold Term.addTo
  by_cases first : s.k = 0
  · simp only [if_pos first]
  by_cases second : t.k = 0
  · simp only [if_pos second]
  simp only [if_neg first, if_neg second]
  by_cases same : s.g.toNat = t.g.toNat
  · rw [same, List.set_set, List.set_set]
    by_cases bound : t.g.toNat < v.length
    · simp only [List.getD_eq_getElem?_getD, List.getElem?_set_self bound, Option.getD_some]
      congr 1
      ring
    · simp only [List.set_eq_of_length_le (le_of_not_gt bound)]
  · simp only [List.getD_eq_getElem?_getD, List.getElem?_set_ne same,
      List.getElem?_set_ne (Ne.symm same)]
    rw [List.set_comm _ _ same]

theorem layerOutputs_perm (noutput : Nat) (w : List E) {terms' : List (Term E)}
    (permuted : terms.Perm terms') :
    layerOutputs noutput w terms = layerOutputs noutput w terms' := by
  have commutes : RightCommutative (Term.addTo w) := ⟨fun v s t => addTo_comm w v s t⟩
  exact permuted.foldl_eq _

theorem SameUpToOrder.perm {layer' : Layer} (same : SameUpToOrder constants layer layer') :
    (layer.termsOf constants).Perm (layer'.termsOf constants) := by
  obtain ⟨terms, terms', expands, expands', permuted⟩ := same.terms
  rw [Layer.termsOf, Layer.termsOf, expands, expands']
  exact permuted

/-- **Layers that are the same up to order have the same values.** -/
theorem circuitValues_congr (constants inputs : List E) (noutput : Nat) {layers' : List Layer}
    (same : List.Forall₂ (SameUpToOrder constants) layers layers') :
    circuitValues constants inputs noutput layers =
      circuitValues constants inputs noutput layers' := by
  induction same generalizing noutput with
  | nil => rfl
  | @cons layer layer' _ _ head tail ih =>
    have asserts : ∀ w : List E, (∀ term ∈ layer.termsOf constants, term.Holds w) =
        ∀ term ∈ layer'.termsOf constants, term.Holds w := by
      intro w
      exact propext (forall_congr' fun term => imp_congr_left head.perm.mem_iff)
    simp only [circuitValues, ← head.nw, ih, layerOutputs_perm _ _ head.perm, asserts]

/-! ### The number of terms -/

theorem sublist_of_nodesByDepth {depth : List Nat} {maxDepth : Nat} {buckets : List (List Nat)}
    (ran : (nodesByDepth depth maxDepth : Exec ε _) = .ok buckets) :
    ∀ bucket ∈ buckets, bucket.Sublist (List.range depth.length) := by
  have each : ∀ bucket ∈ buckets, bucket.Sublist (depth.zipIdx.map Prod.snd) := by
    refine foldlM_preserves (fun done buckets =>
      ∀ bucket ∈ buckets, bucket.Sublist (done.map Prod.snd)) ?_ ?_ ran
    · intro bucket member
      rw [List.eq_of_mem_replicate member]
      exact List.nil_sublist _
    · intro done ⟨d, i⟩ buckets buckets' _ each stepped
      obtain ⟨bucket, found, stepped⟩ := bind_eq_ok.mp stepped
      obtain ⟨_, rfl⟩ := setAt_eq_ok.mp stepped
      have inside := each bucket (List.mem_of_getElem? (getAt_eq_ok.mp found))
      intro other member
      rw [List.map_append, List.map_singleton]
      rcases List.mem_or_eq_of_mem_set member with old | rfl
      · exact (each other old).trans (List.sublist_append_left _ _)
      · exact inside.append_right _
  rwa [List.zipIdx_map_snd, ← List.range_eq_range'] at each

variable {nodes : List (WExpr E)} {quadAsserts : List (Nat × AssertionId)}

theorem length_layerNodes {indices : List Nat} {layer : List (Nat × List (E × Nat × Nat))}
    (ran : (layerNodes nodes indices : Exec ε _) = .ok layer) :
    (layer.map fun node => node.2.length).sum ≤
      (indices.map fun i => (nodes.map WExpr.nterms).getD i 0).sum := by
  obtain ⟨found, looked, ran⟩ := bind_eq_ok.mp ran
  obtain rfl := Except.ok.inj ran
  have each := mapM_eq_ok looked
  clear * - each
  induction each with
  | nil => exact Nat.zero_le _
  | @cons i entry indices found head _ ih =>
    obtain ⟨node, here, head⟩ := bind_eq_ok.mp head
    obtain rfl := Except.ok.inj head
    have size : (nodes.map WExpr.nterms).getD i 0 = node.nterms := by
      rw [List.getD_eq_getElem?_getD, List.getElem?_map, getAt_eq_ok.mp here]
      rfl
    rw [List.map_cons, List.sum_cons, size]
    cases node with
    | sum terms =>
      simp only [WExpr.terms?, Option.map_some, List.reduceOption_cons_of_some,
        List.map_cons, List.sum_cons, WExpr.nterms]
      omega
    | unspecified | input _ | assert0 _ =>
      simp only [WExpr.terms?, Option.map_none, List.reduceOption_cons_of_none]
      omega

theorem length_collectLayer {ids indices : List Nat} {collected : List (Term E) × Nat}
    (ran : (collectLayer nodes ids indices : Exec ε _) = .ok collected) :
    collected.1.length ≤ (indices.map fun i => (nodes.map WExpr.nterms).getD i 0).sum := by
  obtain ⟨layer, sums, ran⟩ := bind_eq_ok.mp ran
  obtain ⟨keyed, numbered, ran⟩ := bind_eq_ok.mp ran
  obtain ⟨terms, renamed, ran⟩ := bind_eq_ok.mp ran
  obtain rfl := Except.ok.inj ran
  refine le_trans (le_of_eq ?_) (length_layerNodes sums)
  have keys : keyed.map (fun node => node.2.length) = layer.map fun node => node.2.length := by
    refine map_eq_of_mapM (fun ran => ?_) numbered
    obtain ⟨g, _, ran⟩ := bind_eq_ok.mp ran
    obtain rfl := Except.ok.inj ran
    rfl
  have sizes : terms.map List.length =
      (keyed.mergeSort fun a b => a.1 ≤ b.1).map fun node => node.2.length :=
    map_eq_of_mapM (fun ran => (mapM_eq_ok ran).length_eq.symm) renamed
  rw [List.length_flatten, sizes, ← keys]
  exact ((List.mergeSort_perm keyed _).map _).sum_eq

theorem sum_nterms_materialize (maxDepth : Nat) (nodes : List (WExpr E)) (depth : List Nat) :
    (((List.zipWith (materialize maxDepth) nodes depth).map Prod.fst).map WExpr.nterms).sum ≤
      (nodes.map WExpr.nterms).sum := by
  induction nodes generalizing depth with
  | nil => simp
  | cons node nodes ih =>
    cases depth with
    | nil => simp
    | cons d depth =>
      have here : (materialize maxDepth node d).1.nterms = node.nterms := by
        cases node with
        | assert0 w =>
          simp only [materialize]
          split <;> rfl
        | unspecified | input _ | sum _ => rfl
      have later := ih depth
      simp only [List.zipWith_cons_cons, List.map_cons, List.sum_cons, here]
      omega

theorem computeNodeDepths_spec {nodes' : List (WExpr E)} {depth : List Nat} {maxDepth : Nat}
    (ran : (computeNodeDepths nodes : Exec ε _) = .ok (nodes', depth, maxDepth)) :
    depth.length = nodes'.length ∧
      (nodes'.map WExpr.nterms).sum ≤ (nodes.map WExpr.nterms).sum := by
  obtain ⟨depths, _, ran⟩ := bind_eq_ok.mp ran
  obtain ⟨_, _, ran⟩ := bind_eq_ok.mp ran
  obtain ⟨deepest, _, ran⟩ := bind_eq_ok.mp ran
  obtain ⟨rfl, later⟩ := Prod.mk.inj (Except.ok.inj ran)
  obtain ⟨rfl, rfl⟩ := Prod.mk.inj later
  exact ⟨by rw [List.length_map, List.length_map], sum_nterms_materialize _ _ _⟩

theorem sum_sublist_le (sizes : List Nat) {bucket : List Nat}
    (inside : bucket.Sublist (List.range sizes.length)) :
    (bucket.map fun i => sizes.getD i 0).sum ≤ sizes.sum := by
  have all : (List.range sizes.length).map (fun i => sizes.getD i 0) = sizes := by
    refine List.ext_getElem (by simp) fun i _ bound => ?_
    rw [List.getElem_map, List.getElem_range, List.getD_eq_getElem _ _ bound]
  have each := (inside.map fun i => sizes.getD i 0).sum_le_sum fun _ _ => Nat.zero_le _
  rwa [all] at each

/-- **A layer has at most as many terms as the circuit.** -/
theorem length_of_prepare {c : QuadCircuit E}
    {npublicInput subfieldBoundary : Nat} {tracker : τ} {prepared : Prepared E τ}
    (ran : (prepare f c quadAsserts npublicInput subfieldBoundary tracker : Exec ε _) =
      .ok prepared) : ∀ layer ∈ prepared.layers, layer.1.length ≤ c.nterms := by
  simp only [prepare] at ran
  obtain ⟨_, _, ran⟩ := bind_eq_ok.mp ran
  obtain ⟨_, _, ran⟩ := bind_eq_ok.mp ran
  obtain ⟨⟨nodes, depth, maxDepth⟩, computed, ran⟩ := bind_eq_ok.mp ran
  obtain ⟨buckets, bucketed, ran⟩ := bind_eq_ok.mp ran
  obtain ⟨wireIds, _, ran⟩ := bind_eq_ok.mp ran
  obtain ⟨symbols, _, ran⟩ := bind_eq_ok.mp ran
  obtain ⟨_, _, ran⟩ := bind_eq_ok.mp ran
  obtain ⟨layers, collected, ran⟩ := bind_eq_ok.mp ran
  obtain ⟨ninput, _, ran⟩ := bind_eq_ok.mp ran
  -- The checks that follow do not change the layers.
  obtain ⟨_, _, ran⟩ := bind_eq_ok.mp ran
  obtain ⟨_, _, ran⟩ := bind_eq_ok.mp ran
  obtain ⟨_, _, ran⟩ := bind_eq_ok.mp ran
  obtain ⟨_, _, ran⟩ := bind_eq_ok.mp ran
  obtain rfl := Except.ok.inj ran
  obtain ⟨size, total⟩ := computeNodeDepths_spec computed
  intro layer member
  obtain ⟨bucket, isBucket, built⟩ := exists_of_mem_right (mapM_eq_ok collected) member
  have inside := sublist_of_nodesByDepth bucketed bucket (List.mem_of_mem_tail isBucket)
  refine le_trans (length_collectLayer built) (le_trans (sum_sublist_le _ ?_) total)
  rwa [List.length_map, ← size]

/-! ### The two schedulers -/

variable {sha256 : Bytes → Vector UInt8 32}

theorem scheduleWith_cases {orderedLayers : List E → Nat → List (List (Term E) × Nat) →
      Exec ε (List Layer)} {c : QuadCircuit E}
    {npublicInput subfieldBoundary : Nat} {tracker : τ} {circuit : Circuit E}
    {info : CircuitGeometry} {symbols : CircuitDebugSymbols τ}
    (ran : (scheduleWith f sha256 orderedLayers c quadAsserts npublicInput subfieldBoundary tracker :
      Exec ε _) = .ok (circuit, info, symbols)) :
    ∃ prepared layers sizes logv, (prepare f c quadAsserts npublicInput subfieldBoundary tracker :
        Exec ε _) = .ok prepared ∧ prepared.layers ≠ [] ∧
      orderedLayers (collectConstants f (prepared.layers.map Prod.fst)) prepared.ninput
        prepared.layers = .ok layers ∧
      (layers.mapM fun layer => layer.numTerms : Exec ε _) = .ok sizes ∧
      (ceilLog2 (lastWidth 0 prepared.layers) : Exec ε Nat) = .ok logv ∧
      circuit.raw = ⟨prepared.ninput, npublicInput, lastWidth 0 prepared.layers, logv,
        subfieldBoundary, collectConstants f (prepared.layers.map Prod.fst), layers.reverse⟩ ∧
      info = ⟨prepared.ninput, npublicInput, lastWidth 0 prepared.layers,
        (prepared.layers.map Prod.snd).sum, sizes.sum, layers.length, prepared.nassertions⟩ ∧
      symbols = prepared.symbols := by
  simp only [scheduleWith] at ran
  obtain ⟨prepared, checked, ran⟩ := bind_eq_ok.mp ran
  obtain ⟨last, found, ran⟩ := bind_eq_ok.mp ran
  obtain ⟨layers, ordered, ran⟩ := bind_eq_ok.mp ran
  obtain ⟨sizes, counted, ran⟩ := bind_eq_ok.mp ran
  obtain ⟨logv, log, ran⟩ := bind_eq_ok.mp ran
  obtain ⟨id, _, ran⟩ := bind_eq_ok.mp ran
  obtain ⟨rfl, later⟩ := Prod.mk.inj (Except.ok.inj ran)
  obtain ⟨rfl, rfl⟩ := Prod.mk.inj later
  have isLast : prepared.layers.getLast? = some last := by
    cases last? : prepared.layers.getLast? with
    | none => simp [last?, expect] at found
    | some other => simpa [last?, expect] using found
  have width : lastWidth 0 prepared.layers = last.2 := by simp [lastWidth, isLast]
  rw [← width] at log
  refine ⟨prepared, layers, sizes, logv, checked, ?_, ordered, counted, log, ?_, ?_, rfl⟩
  · rintro empty
    simp [empty] at isLast
  · rw [width]
  · rw [width]

theorem LayersOf.numTerms {nw : Nat}
    {sizes : List Nat} (written : LayersOf f constants nw collected layers)
    (counted : (layers.mapM fun layer => layer.numTerms : Exec ε _) = .ok sizes) :
    sizes = collected.map fun layer => layer.1.length := by
  induction written generalizing sizes with
  | nil => exact (Except.ok.inj counted).symm
  | cons head tail ih =>
    rw [List.mapM_cons] at counted
    obtain ⟨size, here, counted⟩ := bind_eq_ok.mp counted
    obtain ⟨rest, later, counted⟩ := bind_eq_ok.mp counted
    obtain rfl := Except.ok.inj counted
    obtain ⟨sorted, permuted, expands⟩ := head.terms
    have count : size = sorted.length := by
      have announced := Except.ok.inj (here.symm.trans head.indices.numTerms_eq)
      rw [announced, ← Layer.size, (Layer.numTerms_of_terms expands).2, List.length_map]
    rw [ih later, List.map_cons, count, permuted.length_eq]

/-- Two circuits with the same header and the same layers, up to the order of their terms. -/
structure SameCircuitUpToOrder (raw raw' : RawCircuit E) : Prop where
  ninput : raw'.ninput = raw.ninput
  npublicInput : raw'.npublicInput = raw.npublicInput
  noutput : raw'.noutput = raw.noutput
  logv : raw'.logv = raw.logv
  subfieldBoundary : raw'.subfieldBoundary = raw.subfieldBoundary
  constants : raw'.constants = raw.constants
  layers : List.Forall₂ (SameUpToOrder raw.constants) raw.layers raw'.layers

theorem SameCircuitUpToOrder.evalCircuit_iff {raw raw' : RawCircuit E}
    (same : SameCircuitUpToOrder raw raw') (inRange : raw.InRange) (inRange' : raw'.InRange)
    (messages messages' : EvalMessages E) {inputs : List E} (ws : List (List E))
    (size : inputs.length = raw.ninput) :
    evalCircuit messages inputs raw = .ok ws ↔ evalCircuit messages' inputs raw' = .ok ws := by
  have decides := decides_evalCircuit messages inRange size
  have decides' := decides_evalCircuit messages' inRange' (size.trans same.ninput.symm)
  have values : circuitValues raw'.constants inputs raw'.noutput raw'.layers =
      circuitValues raw.constants inputs raw.noutput raw.layers := by
    rw [same.constants, same.noutput, circuitValues_congr _ _ _ same.layers]
  have accepts : raw'.Accepts inputs ↔ raw.Accepts inputs := by
    rw [RawCircuit.Accepts, RawCircuit.Accepts, values]
  rw [values] at decides'
  by_cases accepted : raw.Accepts inputs
  · rw [decides.returns accepted, decides'.returns (accepts.mpr accepted)]
  · obtain ⟨error, failed⟩ := decides.fails accepted
    obtain ⟨error', failed'⟩ := decides'.fails (mt accepts.mp accepted)
    rw [failed, failed']
    simp

theorem lastWidth_of_ne_nil (n m : Nat)
    (nonempty : collected ≠ []) : lastWidth n collected = lastWidth m collected := by
  cases collected with
  | nil => exact absurd rfl nonempty
  | cons first collected => rw [lastWidth_cons, lastWidth_cons]

/-- **The schedulers agree up to the order of terms**: on a quad circuit that both accept, the
headers, the geometry, the symbols and the widths of all layers are the same, each layer has the
same terms up to their order, and the two circuits evaluate on the same inputs, to the same
values. -/
theorem schedulers_agree {c : QuadCircuit E} (small : c.nterms ≤ 2 ^ 32)
    {quadAsserts : List (Nat × AssertionId)} {npublicInput subfieldBoundary : Nat} {tracker : τ}
    {circuit circuit' : Circuit E} {info info' : CircuitGeometry}
    {symbols symbols' : CircuitDebugSymbols τ}
    (first : (V1.schedule f sha256 c quadAsserts npublicInput subfieldBoundary tracker :
      Exec ε _) = .ok (circuit, info, symbols))
    (second : (V2.schedule f sha256 c quadAsserts npublicInput subfieldBoundary tracker :
      Exec ε _) = .ok (circuit', info', symbols')) :
    SameCircuitUpToOrder circuit.raw circuit'.raw ∧ info' = info ∧ symbols' = symbols ∧
      ∀ messages messages' inputs ws, inputs.length = circuit.raw.ninput →
        (evalCircuit messages inputs circuit.raw = .ok ws ↔
          evalCircuit messages' inputs circuit'.raw = .ok ws) := by
  obtain ⟨prepared, layers, sizes, logv, checked, nonempty, ordered, counted, log, raw, rfl, rfl⟩ :=
    scheduleWith_cases first
  obtain ⟨prepared', layers', sizes', logv', checked', _, ordered', counted', log', raw', rfl,
    rfl⟩ := scheduleWith_cases second
  obtain rfl := Except.ok.inj (checked.symm.trans checked')
  obtain rfl := Except.ok.inj (log.symm.trans log')
  have fits : ∀ layer ∈ prepared.layers, layer.1.length ≤ 2 ^ 32 := fun layer member =>
    (length_of_prepare checked layer member).trans small
  have written := layersOf_orderedLayersV1 fits ordered
  obtain ⟨knownInputs, known, ordered'⟩ := bind_eq_ok.mp ordered'
  obtain ⟨_, rfl⟩ := setAt_eq_ok.mp known
  obtain ⟨written', collected⟩ := layersOf_orderedLayersV2 fits ordered'
  rw [List.length_set, List.length_replicate] at written' collected
  have same := written.sameUpToOrder written'
  -- The ranges that version 2 checks hold for the layers of both versions.
  have range : ∀ {layers : List Layer}, LayersOf f
      (collectConstants f (prepared.layers.map Prod.fst)) prepared.ninput prepared.layers layers →
      LayersInRange (collectConstants f (prepared.layers.map Prod.fst)) prepared.ninput
        (lastWidth 0 prepared.layers) layers.reverse := by
    intro layers written
    have done : LayersInRange (collectConstants f (prepared.layers.map Prod.fst)) prepared.ninput
        prepared.ninput [] := trivial
    have all := written.layersInRange collected (fun _ => rfl) done
    rwa [List.append_nil, lastWidth_of_ne_nil _ 0 nonempty] at all
  rw [raw, raw']
  have alike : SameCircuitUpToOrder
      ⟨prepared.ninput, npublicInput, lastWidth 0 prepared.layers, logv, subfieldBoundary,
        collectConstants f (prepared.layers.map Prod.fst), layers.reverse⟩
      ⟨prepared.ninput, npublicInput, lastWidth 0 prepared.layers, logv, subfieldBoundary,
        collectConstants f (prepared.layers.map Prod.fst), layers'.reverse⟩ :=
    ⟨rfl, rfl, rfl, rfl, rfl, rfl, List.forall₂_reverse_iff.mpr same⟩
  refine ⟨alike, ?_, rfl, fun messages messages' inputs ws size => ?_⟩
  · rw [written.numTerms counted, written'.numTerms counted', same.length_eq]
  · exact alike.evalCircuit_iff (range written) (range written') messages messages' ws size

end Longfellow.Compile
