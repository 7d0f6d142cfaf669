/-
**A layer too wide for its table of deltas.**

The index of a delta is stored in 32 bits, and the schedulers do not check that it fits. In a layer
with `2^32 + 1` different deltas the index of the last one wraps around to zero, and the layer
expands to something else than it was written from; as the last delta is not the same in the two
orders, so do the circuits.

* `schedulers_differ` — **with `2^32` coefficients, the two circuits have different terms.**
-/

import Longfellow.Compile.Agreement
import Longfellow.Lib.Ordering
import Mathlib.Data.ZMod.Basic

set_option linter.unusedSectionVars false

namespace Longfellow.Compile

open Lib

variable {ε E τ : Type} {f : SerializableField E}

/-! ### Tables of different deltas -/

variable {run : List TermDelta} {terms : List (Term E)} {constants : List E}

theorem dedupRun_of_nodup (deltas : List TermDelta) (different : (deltas ++ run).Nodup) :
    dedupRun deltas run =
      ((List.range' deltas.length run.length).map UInt32.ofNat, deltas ++ run) := by
  induction run generalizing deltas with
  | nil => simp [dedupRun]
  | cons d run ih =>
    have absent : d ∉ deltas := by
      intro member
      exact (List.nodup_append.mp different).2.2 d member d (List.mem_cons_self ..) rfl
    have stored : dedupExact deltas d = (UInt32.ofNat deltas.length, deltas ++ [d]) := by
      rw [dedupExact, List.idxOf?_eq_none_iff.mpr absent]
    have later := ih (deltas ++ [d]) (by simpa using different)
    simp only [dedupRun, stored, later]
    simp [List.range'_succ]

theorem dedupRun_concat {d : TermDelta} {deltas : List TermDelta}
    (found : d ∈ (dedupRun deltas run).2) :
    (dedupRun deltas (run ++ [d])).2 = (dedupRun deltas run).2 := by
  induction run generalizing deltas with
  | nil =>
    have stored : d ∈ deltas := found
    obtain ⟨i, here⟩ := Option.isSome_iff_exists.mp (List.isSome_idxOf?.mpr stored)
    simp [dedupRun, dedupExact, here]
  | cons other run ih =>
    simp only [dedupRun] at found
    simpa only [List.cons_append, dedupRun] using ih found

section Wraps

variable {front : List TermDelta} {first last : TermDelta} (starts : front[0]? = some first)
  (size : front.length = 2 ^ 32)

include starts size

theorem unrolled_of_wraps (different : (front ++ [last]).Nodup) :
    ((dedupRun [] (front ++ [last])).1.mapM fun idx =>
      getAt (dedupRun [] (front ++ [last])).2 idx.toNat : Exec ε _) = .ok (front ++ [first]) := by
  have split : List.range' 0 (front ++ [last]).length = List.range' 0 (2 ^ 32) ++ [2 ^ 32] := by
    rw [List.length_append, size, List.length_singleton, List.range'_concat,
      Nat.one_mul, Nat.zero_add]
  have stored : dedupRun [] (front ++ [last]) =
      ((List.range' 0 (2 ^ 32)).map UInt32.ofNat ++ [0], front ++ [last]) := by
    rw [dedupRun_of_nodup [] (by exact different), List.length_nil, split, List.map_append]
    rfl
  have before : (((List.range' 0 (2 ^ 32)).map UInt32.ofNat).mapM fun idx =>
      getAt (front ++ [last]) idx.toNat : Exec ε _) = .ok front := by
    refine mapM_of_forall₂ (List.forall₂_map_left_iff.mpr (List.forall₂_iff_get.mpr ⟨?_, ?_⟩))
    · rw [List.length_range', size]
    · intro i _ bound
      have fits : 0 + 1 * i < 2 ^ 32 := by omega
      rw [List.get_eq_getElem, List.get_eq_getElem, List.getElem_range', getAt_eq_ok,
        UInt32.toNat_ofNat_of_lt' fits, List.getElem?_append_left (by omega)]
      simp
  have wrapped : (getAt (front ++ [last]) (0 : UInt32).toNat : Exec ε _) = .ok first := by
    rw [getAt_eq_ok, UInt32.toNat_zero, List.getElem?_append_left (by omega), starts]
  simp only [stored, List.mapM_append, before, ok_bind, List.mapM_cons, List.mapM_nil, wrapped,
    pure_eq_ok]

/-- **A layer whose last index wraps around** expands to its deltas with the last one replaced by the
first one. -/
theorem terms_of_wraps (nw logw : Nat) (different : (front ++ [last]).Nodup) :
    ((newCompressed nw logw [front ++ [last]] [0]).terms constants : Exec ε _) =
      accumulate constants Wires.zero (front ++ [first]) := by
  have indices : ((newCompressed nw logw [front ++ [last]] [0]).deltaIndices : Exec ε _) =
      .ok (dedupRun [] (front ++ [last])).1 := by
    simp [newCompressed, dedupRuns, Layer.deltaIndices, getAt]
  rw [Layer.terms, Layer.deltaSequence, indices, ok_bind]
  have unrolled := unrolled_of_wraps (ε := ε) starts size different
  simp only [newCompressed, dedupRuns, unrolled, ok_bind]

theorem terms_of_repeats (nw logw : Nat)
    (bounds : ∀ d ∈ front, d.kIndex.toNat < constants.length)
    (summed : (accumulate constants Wires.zero (front ++ [first]) : Exec String _) = .ok terms) :
    ((newCompressed nw logw [front ++ [first]] [0]).terms constants : Exec String _) =
      .ok terms := by
  have isFirst : first ∈ front := List.mem_of_getElem? starts
  have small := length_table (le_of_eq size)
  obtain ⟨_, _, _, reads⟩ := dedupRun_spec front []
  have stored : first ∈ (dedupRun [] front).2 := by
    obtain ⟨index, _, found⟩ := exists_of_mem_right (reads small) isFirst
    exact List.mem_of_getElem? found
  refine (termsOf_newCompressed nw logw ?_ ?_ summed).2
  · rw [dedupRun_concat stored]
    exact small
  · intro d member
    rcases List.mem_append.mp member with old | new
    · exact bounds d old
    · exact List.mem_singleton.mp new ▸ bounds first isFirst

end Wraps

/-! ### The circuit -/

variable [CommRing E] [DecidableEq E]

/-- The products of inputs 1 and 2, and a square. -/
def wideTerms (k : E) (ks : List E) : List (E × Nat × Nat) :=
  (k :: ks).map (fun c => (c, 1, 2)) ++ [(k, 2, 2)]

/-- Three inputs, a sum, and the assertion that it is zero. -/
def wideCircuit (k : E) (ks : List E) : QuadCircuit E :=
  ⟨[.input 0, .input 1, .input 2, .sum (wideTerms k ks), .assert0 3]⟩

/-- The only layer of the circuit. -/
def wideLayer (k : E) (ks : List E) : List (Term E) :=
  (k :: ks).map (fun c => ⟨c, 0, 1, 2⟩) ++ [⟨k, 0, 2, 2⟩]

variable {k : E} {ks : List E}

theorem mem_wideTerms {k : E} {ks : List E} {term : E × Nat × Nat} (member : term ∈ wideTerms k ks) :
    term.1 ∈ k :: ks ∧ (term.2 = (1, 2) ∨ term.2 = (2, 2)) := by
  rcases List.mem_append.mp member with product | square
  · obtain ⟨c, found, rfl⟩ := List.mem_map.mp product
    exact ⟨found, .inl rfl⟩
  · rw [List.mem_singleton.mp square]
    exact ⟨List.mem_cons_self .., .inr rfl⟩

theorem markTerms_wide (terms : List (E × Nat × Nat))
    (operands : ∀ term ∈ terms, term.2 = (1, 2) ∨ term.2 = (2, 2)) :
    (terms.foldlM markTerm [false, true, true, true, true] : Exec ε _) =
      .ok [false, true, true, true, true] := by
  induction terms with
  | nil => rfl
  | cons term terms ih =>
    obtain ⟨here, later⟩ := List.forall_mem_cons.mp operands
    have marked : (markTerm [false, true, true, true, true] term : Exec ε _) =
        .ok [false, true, true, true, true] := by
      rcases here with product | square
      · simp [markTerm, product, setAt]
      · simp [markTerm, square, setAt]
    rw [List.foldlM_cons, marked, ok_bind, ih later]

theorem assertAllNeeded_wide : (assertAllNeeded (wideCircuit k ks).nodes : Exec ε Unit) = .ok () := by
  have marked : ((wideTerms k ks).foldlM markTerm [false, false, false, true, true] : Exec ε _) =
      .ok [false, true, true, true, true] := by
    have first : (markTerm [false, false, false, true, true] (k, 1, 2) : Exec ε _) =
        .ok [false, true, true, true, true] := rfl
    rw [wideTerms, List.map_cons, List.cons_append, List.foldlM_cons, first, ok_bind]
    refine markTerms_wide _ fun term member => ?_
    have inside : term ∈ wideTerms k ks := List.mem_cons_of_mem _ member
    exact (mem_wideTerms inside).2
  simp [assertAllNeeded, wideCircuit, markNode, setAt, getAt, ensure, marked]

theorem depthOfNode_wide :
    (depthOfNode [0, 0, 0, 0, 0] (.sum (wideTerms k ks)) : Exec ε Nat) = .ok 1 := by
  have highest : ∀ terms : List (E × Nat × Nat), (terms.map fun _ => 1).foldl max 1 = 1 := by
    intro terms
    induction terms with
    | nil => rfl
    | cons _ _ ih => exact ih
  have nonempty : wideTerms k ks ≠ [] := by simp [wideTerms]
  simp only [depthOfNode, ensure_of nonempty, ok_bind]
  rw [mapM_eq_ok_map (g := fun _ => 1)]
  · exact congrArg Except.ok (highest _)
  · intro term member
    rcases (mem_wideTerms member).2 with product | square
    · simp [product, getAt]
    · simp [square, getAt]

theorem computeNodeDepths_wide (nonzero : ∀ c ∈ k :: ks, c ≠ 0) :
    (computeNodeDepths (wideCircuit k ks).nodes : Exec ε _) =
      .ok ((wideCircuit k ks).nodes, [0, 0, 0, 1, 1], 1) := by
  have nonempty : wideTerms k ks ≠ [] := by simp [wideTerms]
  have layered : (assertLayering [0, 0, 0, 1, 1] (.sum (wideTerms k ks), 3) : Exec ε Unit) =
      .ok () := by
    simp only [assertLayering, getAt, List.getElem?_cons_succ, List.getElem?_cons_zero, pure_eq_ok,
      ok_bind, ensure_of nonempty]
    refine forM_eq_ok fun term member => ?_
    obtain ⟨coefficient, operands⟩ := mem_wideTerms member
    rcases operands with product | square
    · simp [product, nonzero _ coefficient, ensure]
    · simp [square, nonzero _ coefficient, ensure]
  have inputs : ∀ depth i, (depthOfNode depth (.input i : WExpr E) : Exec ε Nat) = .ok 0 :=
    fun _ _ => rfl
  have asserts : (depthOfNode [0, 0, 0, 1, 0] (.assert0 3 : WExpr E) : Exec ε Nat) = .ok 1 := rfl
  simp only [computeNodeDepths, wideCircuit, List.zipIdx_cons, List.zipIdx_nil, List.length_cons,
    List.length_nil, List.replicate, List.foldlM_cons, List.foldlM_nil, inputs, ok_bind, setAt,
    List.set_cons_zero, List.set_cons_succ, Nat.reduceAdd, Nat.reduceLT, if_true, pure_eq_ok,
    depthOfNode_wide, asserts, List.forM, layered]
  rfl

/-- The coefficients of the circuit: not zero, and in the order of their bytes. -/
structure Ascending (f : SerializableField E) (ks : List E) : Prop where
  nonzero : ∀ k ∈ ks, k ≠ 0
  bytes : ks.Pairwise fun a b => compareBytes (f.toBytes a) (f.toBytes b) = .lt

theorem pairwise_wide {α : Type} (cmp : α → α → Ordering) (term : E → α) (square : α)
    (ascending : Ascending f (k :: ks))
    (products : ∀ a b, cmp (term a) (term b) = compareBytes (f.toBytes a) (f.toBytes b))
    (last : ∀ a, cmp (term a) square = .lt) :
    ((k :: ks).map term ++ [square]).Pairwise fun a b => cmp a b = .lt := by
  refine List.pairwise_append.mpr ⟨List.pairwise_map.mpr ?_, List.pairwise_singleton _ _, ?_⟩
  · refine ascending.bytes.imp fun {a b} below => ?_
    rw [products, below]
  · intro a member b isSquare
    obtain ⟨c, _, rfl⟩ := List.mem_map.mp member
    rw [List.mem_singleton.mp isSquare]
    exact last c

theorem sorted_of_pairwise {α : Type} {cmp : α → α → Ordering} {xs : List α}
    (ordered : xs.Pairwise fun a b => cmp a b = .lt) :
    (xs.mergeSort fun a b => (cmp a b).isLE) = xs ∧ xs.IsChain fun a b => cmp a b ≠ .eq := by
  refine ⟨List.mergeSort_of_pairwise (ordered.imp fun below => ?_),
    (ordered.imp fun below => ?_).isChain⟩
  · rw [below]
    rfl
  · rw [below]
    exact fun same => Ordering.noConfusion same

theorem renameTerms_wide (ascending : Ascending f (k :: ks)) :
    (renameTerms f [0, 1, 2, invalidWireId, invalidWireId] (wideTerms k ks) : Exec ε _) =
      .ok ((k :: ks).map (fun c => ⟨c, 1, 2⟩) ++ [⟨k, 2, 2⟩]) := by
  have each : ((k :: ks).map (fun c => (⟨c, 1, 2⟩ : RenamedTerm E)) ++ [⟨k, 2, 2⟩]) =
      (wideTerms k ks).map fun term => ⟨term.1, term.2.1, term.2.2⟩ := by
    simp [wideTerms]
  obtain ⟨sorted, distinct⟩ := sorted_of_pairwise (pairwise_wide
    (RenamedTerm.compare f) (fun c => ⟨c, 1, 2⟩) ⟨k, 2, 2⟩ ascending (fun _ _ => rfl) fun _ => rfl)
  unfold renameTerms
  rw [mapM_eq_ok_map (g := fun term => ⟨term.1, term.2.1, term.2.2⟩), ← each]
  · simp only [ok_bind, sorted, ensure_of distinct, pure_eq_ok]
  · intro term member
    rcases (mem_wideTerms member).2 with product | square
    · simp [product, getAt]
    · simp [square, getAt]

theorem layerNodes_wide : (layerNodes (wideCircuit k ks).nodes [3, 4] : Exec ε _) =
    .ok [(3, wideTerms k ks)] := rfl

theorem assignWireIds_wide (ascending : Ascending f (k :: ks)) :
    (assignWireIds f (wideCircuit k ks).nodes [[0, 1, 2], [3, 4]] : Exec ε _) =
      .ok [0, 1, 2, 0, invalidWireId] := by
  have layer : (assignLayer f (wideCircuit k ks).nodes [0, 1, 2, invalidWireId, invalidWireId]
      [3, 4] : Exec ε _) = .ok [0, 1, 2, 0, invalidWireId] := by
    simp only [assignLayer, layerNodes_wide, ok_bind, List.mapM_cons, List.mapM_nil,
      renameTerms_wide ascending, pure_eq_ok, List.mergeSort_singleton]
    rfl
  exact bind_eq_ok.mpr ⟨[0, 1, 2, invalidWireId, invalidWireId], rfl,
    bind_eq_ok.mpr ⟨_, layer, rfl⟩⟩

/-- The only symbol: output 0. -/
def wideSymbols (tracker : τ) : CircuitDebugSymbols τ := ⟨[⟨⟨0, 0⟩, 0⟩], tracker⟩

theorem extractDebugSymbols_wide (tracker : τ) :
    (extractDebugSymbols (wideCircuit k ks).nodes [(4, 0)] [0, 1, 2, 0, invalidWireId]
      [0, 0, 0, 1, 1] 1 tracker : Exec ε _) = .ok (wideSymbols tracker) := by
  have symbol : (symbolOf (wideCircuit k ks).nodes [0, 1, 2, 0, invalidWireId] [0, 0, 0, 1, 1] 1
      (4, 0) : Exec ε _) = .ok (some ⟨⟨0, 0⟩, 0⟩) := by
    simp [symbolOf, wideCircuit, invalidWireId, getAt, ensure]
  simp [extractDebugSymbols, symbol, wideSymbols]

theorem collectQuads_wide :
    (collectQuads (wideCircuit k ks).nodes [[0, 1, 2], [3, 4]] [0, 1, 2, 0, invalidWireId] :
      Exec ε _) = .ok [(wideLayer k ks, 1)] := by
  have each : wideLayer k ks = (wideTerms k ks).map fun term =>
      canonicalTerm ⟨term.1, 0, UInt32.ofNat term.2.1, UInt32.ofNat term.2.2⟩ := by
    simp only [wideLayer, wideTerms, List.map_append, List.map_map, List.map_singleton]
    rfl
  have numbered : (getAt [0, 1, 2, 0, invalidWireId] 3 : Exec ε _) = .ok 0 := rfl
  simp only [collectQuads, List.tail_cons, List.mapM_cons, List.mapM_nil, collectLayer,
    layerNodes_wide, ok_bind, numbered, pure_eq_ok, List.mergeSort_singleton]
  rw [mapM_eq_ok_map (g := fun term =>
    canonicalTerm ⟨term.1, 0, UInt32.ofNat term.2.1, UInt32.ofNat term.2.2⟩), ← each]
  · simp
  · intro term member
    rcases (mem_wideTerms member).2 with product | square
    · simp [product, getAt]
    · simp [square, getAt]

theorem mem_wideLayer {term : Term E} (member : term ∈ wideLayer k ks) :
    term.k ∈ k :: ks ∧ (term.wires = ⟨0, 1, 2⟩ ∨ term.wires = ⟨0, 2, 2⟩) := by
  rcases List.mem_append.mp member with product | square
  · obtain ⟨c, found, rfl⟩ := List.mem_map.mp product
    exact ⟨found, .inl rfl⟩
  · rw [List.mem_singleton.mp square]
    exact ⟨List.mem_cons_self .., .inr rfl⟩

theorem visitTerms_wide (terms : List (Term E)) (nonzero : ∀ term ∈ terms, term.k ≠ 0)
    (wires : ∀ term ∈ terms, term.wires = ⟨0, 1, 2⟩ ∨ term.wires = ⟨0, 2, 2⟩) :
    (terms.foldlM visitTerm ([false, true, true], [false]) : Exec ε _) =
      .ok ([false, true, true], [false]) := by
  induction terms with
  | nil => rfl
  | cons term terms ih =>
    obtain ⟨coefficient, nonzero⟩ := List.forall_mem_cons.mp nonzero
    obtain ⟨here, later⟩ := List.forall_mem_cons.mp wires
    have visited : (visitTerm ([false, true, true], [false]) term : Exec ε _) =
        .ok ([false, true, true], [false]) := by
      simp only [Term.wires, Wires.mk.injEq] at here
      rcases here with ⟨_, h0, h1⟩ | ⟨_, h0, h1⟩
      · simp [visitTerm, h0, h1, coefficient, setAt]
      · simp [visitTerm, h0, h1, coefficient, setAt]
    rw [List.foldlM_cons, visited, ok_bind, ih nonzero later]

theorem checkConnectivity_wide (nonzero : ∀ c ∈ k :: ks, c ≠ 0) :
    (checkConnectivity 3 [(wideLayer k ks, 1)] : Exec ε Unit) = .ok () := by
  have coefficient := nonzero k (List.mem_cons_self ..)
  have first : (visitTerm ([false, false, false], [false]) (⟨k, 0, 1, 2⟩ : Term E) : Exec ε _) =
      .ok ([false, true, true], [false]) := by
    simp [visitTerm, coefficient, setAt]
  have visited : ((wideLayer k ks).foldlM visitTerm ([false, false, false], [false]) :
      Exec ε _) = .ok ([false, true, true], [false]) := by
    have inside : ∀ term ∈ ks.map (fun c => (⟨c, 0, 1, 2⟩ : Term E)) ++ [⟨k, 0, 2, 2⟩],
        term ∈ wideLayer k ks := fun term member => List.mem_cons_of_mem _ member
    rw [wideLayer, List.map_cons, List.cons_append, List.foldlM_cons, first, ok_bind]
    exact visitTerms_wide _ (fun term member => nonzero _ (mem_wideLayer (inside term member)).1)
      fun term member => (mem_wideLayer (inside term member)).2
  have checked : (checkLayer 0 [false, false, false] (wideLayer k ks, 1) : Exec ε _) =
      .ok [false] := bind_eq_ok.mpr ⟨_, visited, rfl⟩
  exact bind_eq_ok.mpr ⟨(), rfl, bind_eq_ok.mpr ⟨_, bind_eq_ok.mpr ⟨_, checked, rfl⟩, rfl⟩⟩

theorem prepare_wide (ascending : Ascending f (k :: ks)) (tracker : τ) :
    (prepare f (wideCircuit k ks) [(4, 0)] 1 0 tracker : Exec ε _) =
      .ok ⟨3, 1, [(wideLayer k ks, 1)], wideSymbols tracker⟩ := by
  have inputs : (validateAndCountInputs (wideCircuit k ks).nodes : Exec ε _) = .ok 3 := rfl
  have asserts : (wideCircuit k ks).nodes.countP WExpr.isAssert0 = 1 := rfl
  have buckets : (nodesByDepth [0, 0, 0, 1, 1] 1 : Exec ε _) = .ok [[0, 1, 2], [3, 4]] := rfl
  simp only [prepare, asserts, assertAllNeeded_wide, computeNodeDepths_wide ascending.nonzero,
    buckets, assignWireIds_wide ascending, extractDebugSymbols_wide, collectQuads_wide, inputs,
    checkConnectivity_wide ascending.nonzero, ok_bind]
  rfl

/-! ### Its deltas -/

theorem Ascending.different (ascending : Ascending f (k :: ks)) :
    (k :: ks).Pairwise fun a b => f.toBytes a ≠ f.toBytes b := by
  refine ascending.bytes.imp fun {a b} below same => ?_
  have same' : List.compareLex compare (f.toBytes b) (f.toBytes b) = .eq := Std.ReflCmp.compare_self
  rw [same, compareBytes, same'] at below
  exact Ordering.noConfusion below

theorem foldl_addConstant (constants cs : List E)
    (different : (constants ++ cs).Pairwise fun a b => f.toBytes a ≠ f.toBytes b) :
    (cs.map fun c => (⟨c, 0, 1, 2⟩ : Term E)).foldl (addConstant f) constants =
      constants ++ cs := by
  induction cs generalizing constants with
  | nil => simp
  | cons c cs ih =>
    have absent : (constants.any fun k => f.toBytes k = f.toBytes c) = false := by
      rw [List.any_eq_false]
      intro other member
      have := (List.pairwise_append.mp different).2.2 other member c (List.mem_cons_self ..)
      simpa using this
    rw [List.map_cons, List.foldl_cons, addConstant, if_neg (by simp [absent])]
    rw [ih _ (by simpa using different), List.append_assoc, List.singleton_append]

theorem collectConstants_wide (ascending : Ascending f (k :: ks)) :
    collectConstants f ([(wideLayer k ks, 1)].map Prod.fst) = k :: ks := by
  have products := foldl_addConstant [] (k :: ks) ascending.different
  simp only [collectConstants, List.map_singleton, List.flatten_singleton, wideLayer,
    List.foldl_append, products, List.nil_append, List.foldl_cons, List.foldl_nil]
  simp [addConstant]

theorem constantIndex_of_append (before : List E) {after : List E} {c : E}
    (different : (before ++ c :: after).Pairwise fun a b => f.toBytes a ≠ f.toBytes b) :
    (constantIndex f (before ++ c :: after) c : Exec ε _) = .ok (UInt32.ofNat before.length) := by
  have absent : ∀ other ∈ before, ¬f.toBytes other = f.toBytes c := fun other member =>
    (List.pairwise_append.mp different).2.2 other member c (List.mem_cons_self ..)
  have found : ((before ++ c :: after).findIdx? fun k => f.toBytes k = f.toBytes c) =
      some before.length := by
    have none : (before.findIdx? fun k => f.toBytes k = f.toBytes c) = none :=
      List.findIdx?_eq_none_iff.mpr fun other member => by simpa using absent other member
    simp [List.findIdx?_append, none, List.findIdx?_cons]
  rw [constantIndex, found]
  rfl

/-- Deltas that change no wire. -/
def stillDeltas (start n : Nat) : List TermDelta :=
  (List.range' start n).map fun i => ⟨0, 0, 0, UInt32.ofNat i⟩

theorem termDeltas_products {cs : List E} (before : List E) {tail : List (Term E)}
    (split : constants = before ++ cs)
    (different : constants.Pairwise fun a b => f.toBytes a ≠ f.toBytes b)
    (later : (termDeltas f constants ⟨0, 1, 2⟩ tail : Exec ε _) = .ok run) :
    (termDeltas f constants ⟨0, 1, 2⟩ (cs.map (fun c => ⟨c, 0, 1, 2⟩) ++ tail) : Exec ε _) =
      .ok (stillDeltas before.length cs.length ++ run) := by
  induction cs generalizing before with
  | nil => exact later
  | cons c cs ih =>
    have index : (constantIndex f constants c : Exec ε _) =
        .ok (UInt32.ofNat before.length) := by
      rw [split] at different ⊢
      exact constantIndex_of_append before different
    have rest := ih (before ++ [c]) (by simpa using split)
    rw [List.length_append, List.length_singleton] at rest
    simp only [List.map_cons, List.cons_append, termDeltas, index, ok_bind, Term.wires, rest]
    simp [stillDeltas, List.range'_succ]

/-- The deltas of the order of version 1: the products, then the square. -/
def wideRunV1 (n : Nat) : List TermDelta :=
  (⟨0, 1, 2, 0⟩ :: stillDeltas 1 n) ++ [⟨0, 1, 0, 0⟩]

theorem termDeltas_wideV1 (ascending : Ascending f (k :: ks)) :
    (termDeltas f (k :: ks) Wires.zero (wideLayer k ks) : Exec ε _) =
      .ok (wideRunV1 ks.length) := by
  have different := ascending.different
  have index : (constantIndex f (k :: ks) k : Exec ε _) = .ok 0 :=
    constantIndex_of_append [] different
  have square : (termDeltas f (k :: ks) ⟨0, 1, 2⟩ [⟨k, 0, 2, 2⟩] : Exec ε _) =
      .ok [⟨0, 1, 0, 0⟩] := by
    simp only [termDeltas, index, ok_bind, pure_eq_ok]
    rfl
  have products := termDeltas_products [k] rfl different square
  rw [List.singleton_append, List.length_singleton] at products
  simp only [wideLayer, List.map_cons, List.cons_append, termDeltas, index, ok_bind, Term.wires,
    products, pure_eq_ok]
  rfl

/-- The deltas of the order of version 2: the square, then the products. -/
def wideRunV2 (n : Nat) : List TermDelta :=
  ⟨0, 2, 2, 0⟩ :: ⟨0, 0 - 1, 0, 0⟩ :: stillDeltas 1 n

theorem termDeltas_wideV2 (ascending : Ascending f (k :: ks)) :
    (termDeltas f (k :: ks) Wires.zero
      (⟨k, 0, 2, 2⟩ :: (k :: ks).map (fun c => ⟨c, 0, 1, 2⟩)) : Exec ε _) =
        .ok (wideRunV2 ks.length) := by
  have different := ascending.different
  have index : (constantIndex f (k :: ks) k : Exec ε _) = .ok 0 :=
    constantIndex_of_append [] different
  have nothing : (termDeltas f (k :: ks) ⟨0, 1, 2⟩ [] : Exec ε _) = .ok [] := rfl
  have products := termDeltas_products [k] rfl different nothing
  rw [List.append_nil, List.append_nil, List.singleton_append, List.length_singleton] at products
  simp only [List.map_cons, termDeltas, index, ok_bind, Term.wires, products, pure_eq_ok]
  rfl

/-! ### Both schedulers accept it -/

theorem orderedLayersV1_wide (ascending : Ascending f (k :: ks)) {unrolled : List TermDelta}
    (reads : ((dedupRun [] (wideRunV1 ks.length)).1.mapM fun idx =>
      getAt (dedupRun [] (wideRunV1 ks.length)).2 idx.toNat : Exec ε _) = .ok unrolled) :
    (orderedLayersV1 f (k :: ks) 3 [(wideLayer k ks, 1)] : Exec ε _) =
      .ok [newCompressed 3 2 [unrolled] [0]] := by
  have same : Morton.cmp 1 2 1 2 = .eq := by decide
  have below : Morton.cmp 1 2 2 2 = .lt := by decide
  have ordered := pairwise_wide (compareTerm f) (fun c => ⟨c, 0, 1, 2⟩) ⟨k, 0, 2, 2⟩ ascending
    (fun _ _ => by simp [compareTerm, same]) fun _ => by simp [compareTerm, below]
  obtain ⟨sorted, distinct⟩ := sorted_of_pairwise ordered
  have log : (ceilLog2 3 : Exec ε _) = .ok 2 := rfl
  have run := termDeltas_wideV1 (ε := ε) ascending
  rw [wideLayer] at run ⊢
  simp only [orderedLayersV1, sorted, log, ok_bind, buildLayerV1, assertDistinct,
    ensure_of distinct, run, reads, pure_eq_ok]

/-- The terms with their shapes, in the order of version 2. -/
def wideShaped (k : E) (ks : List E) : List (Nat × Term E) :=
  (2, ⟨k, 0, 2, 2⟩) :: (k :: ks).map fun c => (3, ⟨c, 0, 1, 2⟩)

theorem pairwise_wideShaped (ascending : Ascending f (k :: ks)) :
    (wideShaped k ks).Pairwise fun a b => compareShaped f a b = .lt := by
  refine List.pairwise_cons.mpr ⟨fun shaped member => ?_, List.pairwise_map.mpr ?_⟩
  · obtain ⟨c, _, rfl⟩ := List.mem_map.mp member
    rfl
  · exact ascending.bytes.imp fun {a b} below => below

theorem transCmp_compareShaped : Std.TransCmp (compareShaped f) := by
  have up : Std.TransCmp fun a b : UInt32 => compare a b := inferInstance
  have down : Std.TransCmp fun a b : UInt32 => compare b a := Std.TransCmp.opposite
  have bytes : Std.TransCmp compareBytes :=
    inferInstanceAs (Std.TransCmp (List.compareLex compare))
  have shapes : Std.TransCmp fun a b : Nat => compare a b := inferInstance
  exact transCmp_then (transCmp_comap shapes Prod.fst)
    (transCmp_then (transCmp_comap down fun s : Nat × Term E => s.2.g)
      (transCmp_then (transCmp_comap down fun s : Nat × Term E => s.2.h1)
        (transCmp_then (transCmp_comap up fun s : Nat × Term E => s.2.h0)
          (transCmp_comap bytes fun s : Nat × Term E => f.toBytes s.2.k))))

theorem sorted_wideShaped (ascending : Ascending f (k :: ks)) {shaped : List (Nat × Term E)}
    (permuted : shaped.Perm (wideShaped k ks)) :
    (shaped.mergeSort fun a b => (compareShaped f a b).isLE) = wideShaped k ks := by
  have trans := transCmp_compareShaped (f := f)
  have ordered := pairwise_wideShaped ascending
  have sorted := (List.mergeSort_perm shaped fun a b => (compareShaped f a b).isLE).trans permuted
  refine List.Perm.eq_of_pairwise ?_ (pairwise_sorted trans shaped) ?_ sorted
  · -- Two different terms are strictly ordered one way.
    intro a b isA isB le ge
    by_contra different
    have strict : (wideShaped k ks).Pairwise fun a b =>
        compareShaped f a b = .lt ∨ compareShaped f b a = .lt := ordered.imp fun below => .inl below
    have symm : Std.Symm fun a b : Nat × Term E =>
        compareShaped f a b = .lt ∨ compareShaped f b a = .lt := ⟨fun _ _ => Or.symm⟩
    have same := Std.OrientedCmp.isLE_antisymm le ge
    rcases strict.forall (sorted.mem_iff.mp isA) isB different with below | above
    · rw [below] at same
      exact Ordering.noConfusion same
    · rw [Std.OrientedCmp.gt_of_lt above] at same
      exact Ordering.noConfusion same
  · refine ordered.imp fun below => ?_
    rw [below]
    rfl

theorem propagateConstants_wide (k : E) (ks : List E) :
    ∃ known, (propagateConstants (wideLayer k ks) [some 1, none, none] 1 : Exec ε _) =
      .ok known := by
  suffices loop : ∃ known, ((wideLayer k ks).foldlM (propagateTerm [some 1, none, none])
      [some 0] : Exec ε _) = .ok known ∧ known.length = 1 by
    obtain ⟨known, ran, _⟩ := loop
    exact ⟨known, ran⟩
  refine foldlM_returns (fun _ (known : List (Option E)) => known.length = 1) rfl ?_
  intro done term known started size
  obtain ⟨known, rfl⟩ := List.length_eq_one_iff.mp size
  have member : term ∈ wideLayer k ks := started.subset (by simp)
  have wires := (mem_wideLayer member).2
  simp only [Term.wires, Wires.mk.injEq] at wires
  cases known with
  | none =>
    rcases wires with ⟨g, h0, h1⟩ | ⟨g, h0, h1⟩
    · exact ⟨[none], by simp [propagateTerm, getAt, g], rfl⟩
    · exact ⟨[none], by simp [propagateTerm, getAt, g], rfl⟩
  | some value =>
    rcases wires with ⟨g, h0, h1⟩ | ⟨g, h0, h1⟩
    · exact ⟨[none], by simp [propagateTerm, getAt, setAt, g, h0, h1], rfl⟩
    · exact ⟨[none], by simp [propagateTerm, getAt, setAt, g, h0, h1], rfl⟩

/-- **Version 2 puts the square first.** -/
theorem orderLayer_wide (ascending : Ascending f (k :: ks)) :
    ∃ known, (orderLayer f (wideLayer k ks) [some 1, none, none] 1 : Exec ε _) =
      .ok (⟨k, 0, 2, 2⟩ :: (k :: ks).map (fun c => ⟨c, 0, 1, 2⟩), known) := by
  obtain ⟨known, propagated⟩ := propagateConstants_wide (ε := ε) k ks
  refine ⟨known, ?_⟩
  let shapeOf := fun term : Term E => (if term.h0 = term.h1 then 2 else 3, term)
  have shaped : ((wideLayer k ks).map shapeOf).Perm (wideShaped k ks) := by
    have split : (wideLayer k ks).map shapeOf =
        (k :: ks).map (fun c => (3, ⟨c, 0, 1, 2⟩)) ++ [(2, ⟨k, 0, 2, 2⟩)] := by
      simp [wideLayer, shapeOf]
    rw [split]
    exact List.perm_append_comm
  have sorted := sorted_wideShaped ascending shaped
  simp only [orderLayer, propagated, ok_bind]
  rw [mapM_eq_ok_map (g := shapeOf), ok_bind]
  · simp only [sorted, pure_eq_ok]
    simp [wideShaped]
  · intro term member
    have wires := (mem_wideLayer member).2
    simp only [Term.wires, Wires.mk.injEq] at wires
    rcases wires with ⟨_, h0, h1⟩ | ⟨_, h0, h1⟩
    · simp [kind, getAt, h0, h1, shapeOf]
    · simp [kind, getAt, h0, h1, shapeOf]

theorem orderedFromOne_wide (ascending : Ascending f (k :: ks)) :
    (orderedFromOne f (k :: ks) 3 [(wideLayer k ks, 1)] : Exec ε _) =
      .ok [newCompressed 3 2 [wideRunV2 ks.length] [0]] := by
  have known : (setAt (List.replicate 3 (none : Option E)) 0 (some 1) : Exec ε _) =
      .ok [some 1, none, none] := rfl
  obtain ⟨_, ordered⟩ := orderLayer_wide (ε := ε) ascending
  have log : (ceilLog2 3 : Exec ε _) = .ok 2 := rfl
  have run := termDeltas_wideV2 (ε := ε) ascending
  have distinct : ((⟨k, 0, 2, 2⟩ : Term E) :: (k :: ks).map (fun c => ⟨c, 0, 1, 2⟩)).IsChain
      fun a b => compareTerm f a b ≠ .eq := by
    have same : Morton.cmp 1 2 1 2 = .eq := by decide
    have above : Morton.cmp 2 2 1 2 = .gt := by decide
    refine (List.pairwise_cons.mpr ⟨fun term member => ?_, List.pairwise_map.mpr ?_⟩).isChain
    · obtain ⟨c, _, rfl⟩ := List.mem_map.mp member
      simp [compareTerm, above]
    · refine ascending.bytes.imp fun {a b} below => ?_
      simp [compareTerm, same, below]
  simp only [orderedFromOne, known, orderedLayersV2, ordered, ok_bind, List.length_cons,
    List.length_nil, Nat.reduceAdd,
    log, buildLayerV2, assertDistinct, ensure_of distinct, run, pure_eq_ok]

variable (sha256 : Bytes → Vector UInt8 32)

/-- The header of the scheduled circuits. -/
def wideRaw (k : E) (ks : List E) (layer : Layer) : RawCircuit E :=
  ⟨3, 1, 1, 0, 0, k :: ks, [layer]⟩

/-- The geometry of the scheduled circuits. -/
def wideInfo (nterms : Nat) : CircuitGeometry := ⟨3, 1, 1, 1, nterms, 1, 1⟩

/-- **A layer that expands gives a circuit.** -/
theorem scheduleWith_wide (ascending : Ascending f (k :: ks)) (tracker : τ)
    {orderedLayers : List E → Nat → List (List (Term E) × Nat) → Exec ε (List Layer)}
    {layer : Layer} (ordered : orderedLayers (k :: ks) 3 [(wideLayer k ks, 1)] = .ok [layer])
    (expands : (layer.terms (k :: ks) : Exec ε _) = .ok terms) :
    ∃ id, (scheduleWith f sha256 orderedLayers (wideCircuit k ks) [(4, 0)] 1 0 tracker :
      Exec ε _) = .ok (⟨wideRaw k ks layer, id⟩, wideInfo terms.length, wideSymbols tracker) := by
  have log : (ceilLog2 1 : Exec ε _) = .ok 0 := rfl
  have count := (Layer.numTerms_of_terms expands).1
  obtain ⟨id, computed⟩ : ∃ id, (computeId sha256 f (wideRaw k ks layer) : Exec ε _) = .ok id := by
    simp only [computeId, wideRaw, List.mapM_cons, List.mapM_nil, layerBytes, count, ok_bind,
      expands, pure_eq_ok]
    exact ⟨_, rfl⟩
  refine ⟨id, ?_⟩
  rw [wideRaw] at computed
  simp only [scheduleWith, prepare_wide ascending, ok_bind, List.getLast?_singleton, expect,
    pure_eq_ok, collectConstants_wide ascending, ordered, List.mapM_cons, List.mapM_nil, count, log,
    List.reverse_singleton, computed]
  rfl

/-! ### The circuits differ -/

variable {start n : Nat}

theorem accumulate_stillDeltas {wires : Wires} {rest : List TermDelta}
    (summed : (accumulate constants wires (stillDeltas start n ++ rest) : Exec ε _) = .ok terms) :
    ∃ before after, terms = before ++ after ∧ (∀ term ∈ before, term.wires = wires) ∧
      (accumulate constants wires rest : Exec ε _) = .ok after := by
  induction n generalizing start terms with
  | zero => exact ⟨[], terms, rfl, by simp, summed⟩
  | succ n ih =>
    have still : wires.step ⟨0, 0, 0, UInt32.ofNat start⟩ = wires := by
      simp [Wires.step]
    rw [stillDeltas, List.range'_succ, List.map_cons, List.cons_append] at summed
    obtain ⟨c, _, summed⟩ := bind_eq_ok.mp summed
    obtain ⟨later, rest, summed⟩ := bind_eq_ok.mp summed
    obtain rfl := Except.ok.inj summed
    rw [still] at rest ⊢
    obtain ⟨before, after, rfl, same, last⟩ := ih rest
    exact ⟨_ :: before, after, rfl, List.forall_mem_cons.mpr ⟨rfl, same⟩, last⟩

theorem mem_stillDeltas {d : TermDelta} (member : d ∈ stillDeltas start n) :
    d.h0 = 0 ∧ d.h1 = 0 := by
  obtain ⟨i, _, rfl⟩ := List.mem_map.mp member
  exact ⟨rfl, rfl⟩

theorem nodup_stillDeltas (fits : start + n ≤ 2 ^ 32) :
    (stillDeltas start n).Nodup := by
  refine List.Nodup.map_on ?_ List.nodup_range'
  intro i isIndex j isIndex' same
  rw [List.mem_range'_1] at isIndex isIndex'
  have below : i < UInt32.size := lt_of_lt_of_le isIndex.2 fits
  have below' : j < UInt32.size := lt_of_lt_of_le isIndex'.2 fits
  have index := congrArg UInt32.toNat (congrArg TermDelta.kIndex same)
  rwa [UInt32.toNat_ofNat_of_lt' below, UInt32.toNat_ofNat_of_lt' below'] at index

theorem nodup_wideRunV1 (fits : 1 + n ≤ 2 ^ 32) : (wideRunV1 n).Nodup := by
  have first : (⟨0, 1, 2, 0⟩ : TermDelta) ∉ stillDeltas 1 n := fun member =>
    absurd (mem_stillDeltas member).1 (by decide)
  have last : ∀ d ∈ (⟨0, 1, 2, 0⟩ : TermDelta) :: stillDeltas 1 n, ∀ e ∈ [(⟨0, 1, 0, 0⟩ : TermDelta)],
      d ≠ e := by
    intro d member e isLast same
    rw [List.mem_singleton.mp isLast] at same
    rcases List.mem_cons.mp member with rfl | still
    · exact absurd same (by decide)
    · exact absurd (same ▸ (mem_stillDeltas still).1) (by decide)
  exact List.nodup_append.mpr
    ⟨List.nodup_cons.mpr ⟨first, nodup_stillDeltas fits⟩, List.nodup_singleton _, last⟩

theorem nodup_wideRunV2 (fits : 1 + n ≤ 2 ^ 32) : (wideRunV2 n).Nodup := by
  have first : (⟨0, 2, 2, 0⟩ : TermDelta) ∉ ⟨0, 0 - 1, 0, 0⟩ :: stillDeltas 1 n := by
    intro member
    rcases List.mem_cons.mp member with same | still
    · exact absurd same (by decide)
    · exact absurd (mem_stillDeltas still).1 (by decide)
  have second : (⟨0, 0 - 1, 0, 0⟩ : TermDelta) ∉ stillDeltas 1 n := fun member =>
    absurd (mem_stillDeltas member).1 (by decide)
  exact List.nodup_cons.mpr ⟨first, List.nodup_cons.mpr ⟨second, nodup_stillDeltas fits⟩⟩

theorem length_stillDeltas (start n : Nat) : (stillDeltas start n).length = n := by
  rw [stillDeltas, List.length_map, List.length_range']

/-- With `2^32` coefficients, every index of a coefficient is in range. -/
theorem index_lt (size : constants.length = 2 ^ 32) (d : TermDelta) :
    d.kIndex.toNat < constants.length := by
  rw [size]
  exact d.kIndex.toNat_lt

/-- **Version 1 expands its layer to a term of wires 2 and 4.** -/
theorem wrapsV1 (ascending : Ascending f (k :: ks)) (size : (k :: ks).length = 2 ^ 32)
    (tracker : τ) : ∃ layer id info terms, (V1.schedule f sha256 (wideCircuit k ks) [(4, 0)] 1 0
        tracker : Exec String _) = .ok (⟨wideRaw k ks layer, id⟩, info, wideSymbols tracker) ∧
      (layer.terms (k :: ks) : Exec String _) = .ok terms ∧
      ∃ term ∈ terms, term.wires = ⟨0, 2, 4⟩ := by
  have count : ks.length + 1 = 2 ^ 32 := size
  have front : ((⟨0, 1, 2, 0⟩ : TermDelta) :: stillDeltas 1 ks.length).length = 2 ^ 32 := by
    rw [List.length_cons, length_stillDeltas, count]
  have indices : ∀ d ∈ ((⟨0, 1, 2, 0⟩ : TermDelta) :: stillDeltas 1 ks.length) ++ [⟨0, 1, 2, 0⟩],
      d.kIndex.toNat < (k :: ks).length := fun d _ => index_lt size d
  obtain ⟨terms, summed, _⟩ := accumulate_returns (ε := String) Wires.zero indices
  have expands := terms_of_repeats rfl front 3 2 (fun d _ => index_lt size d) summed
  have reads := unrolled_of_wraps (ε := String) rfl front
    (nodup_wideRunV1 (n := ks.length) (by omega))
  obtain ⟨id, scheduled⟩ := scheduleWith_wide sha256 ascending tracker
    (orderedLayersV1_wide ascending reads) expands
  refine ⟨_, id, _, terms, scheduled, expands, ?_⟩
  -- The last delta is the first one again.
  obtain ⟨c, _, summed⟩ := bind_eq_ok.mp summed
  obtain ⟨later, summed', rest⟩ := bind_eq_ok.mp summed
  obtain rfl := Except.ok.inj rest
  obtain ⟨before, after, rfl, _, last⟩ := accumulate_stillDeltas summed'
  obtain ⟨c', _, last⟩ := bind_eq_ok.mp last
  obtain rfl := Except.ok.inj last
  exact ⟨⟨c', 0, 2, 4⟩, by simp [Wires.step, Wires.zero], rfl⟩

/-- **Version 2 does not.** -/
theorem wrapsV2 (ascending : Ascending f (k :: ks)) (size : (k :: ks).length = 2 ^ 32)
    (tracker : τ) : ∃ layer id info terms, (V2.schedule f sha256 (wideCircuit k ks) [(4, 0)] 1 0
        tracker : Exec String _) = .ok (⟨wideRaw k ks layer, id⟩, info, wideSymbols tracker) ∧
      (layer.terms (k :: ks) : Exec String _) = .ok terms ∧
      ∀ term ∈ terms, term.wires ≠ ⟨0, 2, 4⟩ := by
  obtain ⟨n, count⟩ : ∃ n, ks.length = n + 1 := ⟨2 ^ 32 - 2, by
    rw [List.length_cons] at size
    omega⟩
  have total : n + 2 = 2 ^ 32 := by
    rw [List.length_cons, count] at size
    omega
  have split : wideRunV2 (n + 1) = (⟨0, 2, 2, 0⟩ :: ⟨0, 0 - 1, 0, 0⟩ :: stillDeltas 1 n) ++
      [⟨0, 0, 0, UInt32.ofNat (1 + n)⟩] := by
    rw [wideRunV2, stillDeltas, List.range'_concat, List.map_append, Nat.one_mul]
    rfl
  have front : ((⟨0, 2, 2, 0⟩ : TermDelta) :: ⟨0, 0 - 1, 0, 0⟩ :: stillDeltas 1 n).length =
      2 ^ 32 := by
    rw [List.length_cons, List.length_cons, length_stillDeltas, total]
  have indices : ∀ d ∈ ((⟨0, 2, 2, 0⟩ : TermDelta) :: ⟨0, 0 - 1, 0, 0⟩ :: stillDeltas 1 n) ++
      [⟨0, 2, 2, 0⟩], d.kIndex.toNat < (k :: ks).length := fun d _ => index_lt size d
  obtain ⟨terms, summed, _⟩ := accumulate_returns (ε := String) Wires.zero indices
  have different := nodup_wideRunV2 (n := n + 1) (by omega)
  have expands : ((newCompressed 3 2 [wideRunV2 ks.length] [0]).terms (k :: ks) : Exec String _) =
      .ok terms := by
    rw [count, split]
    rw [split] at different
    exact (terms_of_wraps rfl front 3 2 different).trans summed
  obtain ⟨id, scheduled⟩ := scheduleWith_wide sha256 ascending tracker
    (orderedFromOne_wide ascending) expands
  refine ⟨_, id, _, terms, scheduled, expands, ?_⟩
  obtain ⟨c, _, summed⟩ := bind_eq_ok.mp summed
  obtain ⟨later, summed', rest⟩ := bind_eq_ok.mp summed
  obtain rfl := Except.ok.inj rest
  obtain ⟨c', _, summed'⟩ := bind_eq_ok.mp summed'
  obtain ⟨later, summed'', rest⟩ := bind_eq_ok.mp summed'
  obtain rfl := Except.ok.inj rest
  obtain ⟨before, after, rfl, same, last⟩ := accumulate_stillDeltas summed''
  obtain ⟨c'', _, last⟩ := bind_eq_ok.mp last
  obtain rfl := Except.ok.inj last
  intro term member
  simp only [List.mem_cons, List.mem_append, List.not_mem_nil, or_false] at member
  rcases member with rfl | rfl | still | rfl
  · change (⟨0, 2, 2⟩ : Wires) ≠ ⟨0, 2, 4⟩
    decide
  · change (⟨0, 1, 2⟩ : Wires) ≠ ⟨0, 2, 4⟩
    decide
  · rw [same term still]
    decide
  · change (⟨0, 3, 4⟩ : Wires) ≠ ⟨0, 2, 4⟩
    decide

/-- The field of `2^64 - 2^32 + 1` elements. -/
abbrev Goldi := ZMod 18446744069414584321

/-- Its elements as eight bytes. -/
def goldi : SerializableField Goldi := primeField 18446744069414584321 8

theorem goldi_injective {a b : Goldi} (same : goldi.toBytes a = goldi.toBytes b) : a = b := by
  have lawful : LawfulField (primeField 18446744069414584321 8) := lawful_primeField (by decide)
  have parsed := lawful.parse_toBytes a
  rw [show (primeField 18446744069414584321 8).toBytes a = goldi.toBytes b from same] at parsed
  exact Except.ok.inj (parsed.symm.trans (lawful.parse_toBytes b))

theorem ascending_one : Ascending goldi [1] := by
  refine ⟨fun c member => ?_, List.pairwise_singleton _ _⟩
  rw [List.mem_singleton.mp member]
  decide

/-- With one coefficient they agree: the product and the square change places. -/
theorem schedulers_agree_narrow :
    (wideCircuit (1 : Goldi) []).nterms ≤ 2 ^ 32 ∧
      ∃ circuit circuit' info info', (V1.schedule goldi (fun _ => Vector.replicate 32 0)
          (wideCircuit 1 []) [(4, 0)] 1 0 () : Exec String _) =
            .ok (circuit, info, wideSymbols ()) ∧
        (V2.schedule goldi (fun _ => Vector.replicate 32 0)
          (wideCircuit 1 []) [(4, 0)] 1 0 () : Exec String _) =
            .ok (circuit', info', wideSymbols ()) ∧
        SameCircuitUpToOrder circuit.raw circuit'.raw ∧ info' = info := by
  have small : (wideCircuit (1 : Goldi) []).nterms ≤ 2 ^ 32 := by decide
  have expands : ((newCompressed 3 2 [wideRunV1 0] [0]).terms [(1 : Goldi)] : Exec String _) =
      .ok [⟨1, 0, 1, 2⟩, ⟨1, 0, 2, 2⟩] := rfl
  have expands' : ((newCompressed 3 2 [wideRunV2 0] [0]).terms [(1 : Goldi)] : Exec String _) =
      .ok [⟨1, 0, 2, 2⟩, ⟨1, 0, 1, 2⟩] := rfl
  obtain ⟨id, scheduled⟩ := scheduleWith_wide (fun _ => Vector.replicate 32 0) ascending_one ()
    (orderedLayersV1_wide ascending_one rfl) expands
  obtain ⟨id', scheduled'⟩ := scheduleWith_wide (fun _ => Vector.replicate 32 0) ascending_one ()
    (orderedFromOne_wide ascending_one) expands'
  obtain ⟨same, geometry, _⟩ := schedulers_agree small scheduled scheduled'
  exact ⟨small, _, _, _, _, scheduled, scheduled', same, geometry⟩

/-- The numbers from 1 to `2^32`, in the order of their bytes. -/
def wideCoefficients : List Goldi :=
  ((List.range (2 ^ 32)).map fun i => ((i + 1 : Nat) : Goldi)).mergeSort fun a b =>
    (compareBytes (goldi.toBytes a) (goldi.toBytes b)).isLE

theorem natCast_goldi {i j : Nat} (small : i < 18446744069414584321)
    (small' : j < 18446744069414584321) (same : (i : Goldi) = (j : Goldi)) : i = j := by
  rw [ZMod.natCast_eq_natCast_iff', Nat.mod_eq_of_lt small, Nat.mod_eq_of_lt small'] at same
  exact same

theorem ascending_wideCoefficients : Ascending goldi wideCoefficients := by
  have permuted : wideCoefficients.Perm ((List.range (2 ^ 32)).map fun i =>
      ((i + 1 : Nat) : Goldi)) := List.mergeSort_perm _ _
  refine ⟨fun c member zero => ?_, ?_⟩
  · obtain ⟨i, inRange, rfl⟩ := List.mem_map.mp (permuted.mem_iff.mp member)
    rw [List.mem_range] at inRange
    rw [← Nat.cast_zero] at zero
    exact absurd (natCast_goldi (by omega) (by omega) zero) (by omega)
  · have trans : Std.TransCmp fun a b : Goldi =>
        compareBytes (goldi.toBytes a) (goldi.toBytes b) :=
      transCmp_comap (inferInstanceAs (Std.TransCmp (List.compareLex compare))) goldi.toBytes
    have sorted : wideCoefficients.Pairwise fun a b =>
        (compareBytes (goldi.toBytes a) (goldi.toBytes b)).isLE = true := pairwise_sorted trans _
    have nodup : wideCoefficients.Nodup := by
      rw [permuted.nodup_iff]
      refine List.Nodup.map_on (fun i isIndex j isIndex' same => ?_) List.nodup_range
      rw [List.mem_range] at isIndex isIndex'
      exact Nat.succ.inj (natCast_goldi (by omega) (by omega) same)
    refine (sorted.and nodup).imp fun {a b} ⟨le, different⟩ => ?_
    cases verdict : compareBytes (goldi.toBytes a) (goldi.toBytes b) with
    | lt => rfl
    | eq =>
      have lawful : Std.LawfulEqCmp compareBytes :=
        inferInstanceAs (Std.LawfulEqCmp (List.compareLex compare))
      have same := Std.LawfulEqCmp.eq_of_compare verdict
      exact absurd (goldi_injective same) different
    | gt => simp [verdict] at le

theorem length_wideCoefficients : wideCoefficients.length = 2 ^ 32 := by
  rw [wideCoefficients, List.length_mergeSort, List.length_map, List.length_range]

/-- **The schedulers do not agree on a layer of `2^32 + 1` different deltas.** -/
theorem schedulers_differ :
    ∃ circuit circuit' info info', (V1.schedule goldi (fun _ => Vector.replicate 32 0)
        (wideCircuit (wideCoefficients.headD 0) wideCoefficients.tail) [(4, 0)] 1 0 () :
          Exec String _) = .ok (circuit, info, wideSymbols ()) ∧
      (V2.schedule goldi (fun _ => Vector.replicate 32 0)
        (wideCircuit (wideCoefficients.headD 0) wideCoefficients.tail) [(4, 0)] 1 0 () :
          Exec String _) = .ok (circuit', info', wideSymbols ()) ∧
      ¬SameCircuitUpToOrder circuit.raw circuit'.raw := by
  have ascending := ascending_wideCoefficients
  have size := length_wideCoefficients
  generalize wideCoefficients = coefficients at ascending size ⊢
  cases coefficients with
  | nil => simp at size
  | cons k ks =>
    obtain ⟨layer, id, info, terms, scheduled, expands, term, member, wires⟩ :=
      wrapsV1 (fun _ => Vector.replicate 32 0) ascending size ()
    obtain ⟨layer', id', info', terms', scheduled', expands', others⟩ :=
      wrapsV2 (fun _ => Vector.replicate 32 0) ascending size ()
    refine ⟨_, _, _, _, scheduled, scheduled', fun same => ?_⟩
    cases same.layers with
    | cons head _ =>
      obtain ⟨found, found', isFound, isFound', permuted⟩ := head.terms
      obtain rfl := Except.ok.inj (isFound.symm.trans expands)
      obtain rfl := Except.ok.inj (isFound'.symm.trans expands')
      exact others term (permuted.mem_iff.mp member) wires

end Longfellow.Compile
