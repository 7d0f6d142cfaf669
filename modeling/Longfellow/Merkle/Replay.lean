/-
**What the Merkle loops compute.**

* `replay_returns`, `replay_replayed` — **the verifier's array**: an opening is replayed exactly
  when it is as long as the frontier, and the array is then filled bottom-up from the frontier and
  the opened leaves (`Replayed`).
-/

import Longfellow.Lib.Safe
import Longfellow.Merkle.Heap

namespace Longfellow

open Lib

variable {ε : Type}

/-! ### The path mask -/

/-- The mask of the paths from the requested leaves to the root. -/
structure Marks (n : Nat) (indices : List Nat) (mask : List Bool) : Prop where
  length : mask.length = 2 * n
  leaf : ∀ {v}, n ≤ v → v < 2 * n → (mask[v]? = some true ↔ v - n ∈ indices)
  node : ∀ {i}, 1 ≤ i → i < n →
    (mask[i]? = some true ↔ mask[2 * i]? = some true ∨ mask[2 * i + 1]? = some true)

/-- The mask after some leaves have been marked. -/
structure LeavesMarked (n : Nat) (done : List Nat) (mask : List Bool) : Prop where
  length : mask.length = 2 * n
  leaf : ∀ {v}, n ≤ v → v < 2 * n → (mask[v]? = some true ↔ v - n ∈ done)

variable {i : Nat} {mask : List Bool} {n : Nat}

theorem markLeaf_eq_ok {after : List Bool} :
    markLeaf n mask i = .ok after ↔
      i < n ∧ mask[i + n]? = some false ∧ after = mask.set (i + n) true := by
  rw [markLeaf, bind_eq_ok]
  simp only [check_eq_ok, bind_eq_ok, getAt_eq_ok, setAt_eq_ok]
  constructor
  · rintro ⟨_, bound, marked, found, _, rfl, _, rfl⟩
    exact ⟨bound, found, rfl⟩
  · rintro ⟨inRange, found, rfl⟩
    exact ⟨(), inRange, false, found, (), rfl, (List.getElem?_eq_some_iff.mp found).1, rfl⟩

theorem LeavesMarked.step {done : List Nat}
    (marks : LeavesMarked n done mask) (inRange : i < n) :
    LeavesMarked n (done ++ [i]) (mask.set (i + n) true) := by
  refine ⟨by rw [List.length_set, marks.length], fun {v} low high => ?_⟩
  by_cases same : i + n = v
  · subst same
    have bound : i + n < mask.length := by
      rw [marks.length, Nat.two_mul]
      exact Nat.add_lt_add_right inRange n
    rw [List.getElem?_set_self bound]
    simp
  · rw [List.getElem?_set_ne same, marks.leaf low high, List.mem_append, List.mem_singleton]
    constructor
    · exact Or.inl
    · rintro (member | equal)
      · exact member
      · exact absurd equal (by omega)

theorem leavesMarked_nil (n : Nat) : LeavesMarked n [] (List.replicate (2 * n) false) := by
  refine ⟨List.length_replicate, fun {v} _ high => ?_⟩
  simp [high]

variable {indices : List Nat}

theorem LeavesMarked.marks {marked : List Bool}
    (leaves : LeavesMarked n indices marked)
    (filled : Filled (fun _ left right => left || right) n marked mask) :
    Marks n indices mask := by
  refine ⟨filled.length.trans leaves.length, fun low high => ?_, fun low high => ?_⟩
  · rw [filled.leaf low, leaves.leaf low high]
  · obtain ⟨old, left, right, _, isLeft, isRight, here⟩ := filled.node low high
    rw [isLeft, isRight, here]
    simp

section

variable (marks : Marks n indices mask)
include marks

theorem Marks.parent {v : Nat} (below : 2 ≤ v) (here : mask[v]? = some true) :
    mask[v / 2]? = some true := by
  have inside : v < 2 * n := marks.length ▸ (List.getElem?_eq_some_iff.mp here).1
  refine (marks.node (by omega) (by omega)).mpr ?_
  rcases Nat.even_or_odd' v with ⟨k, rfl | rfl⟩
  · exact Or.inl (by rwa [show 2 * (2 * k / 2) = 2 * k by omega])
  · exact Or.inr (by rwa [show 2 * ((2 * k + 1) / 2) + 1 = 2 * k + 1 by omega])

theorem Marks.requested (member : i ∈ indices) (inRange : i < n) :
    mask[i + n]? = some true :=
  (marks.leaf (by omega) (by omega)).mpr (by simpa using member)

theorem Marks.root {v : Nat} (low : 1 ≤ v) (here : mask[v]? = some true) :
    mask[1]? = some true := by
  induction v using Nat.strong_induction_on with
  | _ v ih =>
    by_cases top : v = 1
    · exact top ▸ here
    · exact ih (v / 2) (by omega) (by omega) (marks.parent (by omega) here)

end

/-- **The path mask of distinct indices in range.** -/
theorem markPathsToRoot_returns (some : indices ≠ []) (inRange : ∀ i ∈ indices, i < n)
    (distinct : indices.Nodup) :
    ∃ mask, markPathsToRoot n indices = .ok mask ∧ Marks n indices mask := by
  obtain ⟨first, others, shape⟩ := List.exists_cons_of_ne_nil some
  have member : first ∈ indices := shape ▸ List.mem_cons_self ..
  have pos : 1 ≤ n := by
    have := inRange first member
    omega
  obtain ⟨marked, ran, leaves⟩ : ∃ marked,
      indices.foldlM (markLeaf n) (List.replicate (2 * n) false) = .ok marked ∧
        LeavesMarked n indices marked := by
    refine foldlM_returns (LeavesMarked n) (leavesMarked_nil n) ?_
    intro done i mask isPrefix marks
    have bound : i < n := inRange i (isPrefix.subset (by simp))
    have fresh : i ∉ done := by
      have apart := distinct.sublist isPrefix.sublist
      rw [List.nodup_append] at apart
      exact fun seen => apart.2.2 i seen i (by simp) rfl
    refine ⟨mask.set (i + n) true, markLeaf_eq_ok.mpr ⟨bound, ?_, rfl⟩, marks.step bound⟩
    have inside : i + n < mask.length := by
      rw [marks.length]
      omega
    have unmarked : mask[i + n]? ≠ Option.some true := fun found => by
      have seen := (marks.leaf (by omega) (by omega)).mp found
      exact fresh (by simpa using seen)
    rw [List.getElem?_eq_getElem inside] at unmarked ⊢
    simpa using unmarked
  obtain ⟨mask, passed, filled⟩ := bottomUp_returns (ε := MerkleError)
    (fun _ left right => left || right) pos leaves.length
  have marks := leaves.marks filled
  refine ⟨mask, ?_, marks⟩
  have top : (getAt mask 1 : Exec MerkleError Bool) = .ok true :=
    getAt_eq_ok.mpr (marks.root (by omega) (marks.requested member (inRange first member)))
  rw [markPathsToRoot, check_of some, ok_bind, ran, ok_bind, passed, ok_bind, top, ok_bind,
    check_of rfl, ok_bind, pure_eq_ok]

/-- **Only distinct indices in range have a path mask.** -/
theorem markPathsToRoot_marks
    (ran : markPathsToRoot n indices = .ok mask) :
    indices ≠ [] ∧ (∀ i ∈ indices, i < n) ∧ indices.Nodup ∧ Marks n indices mask := by
  have whole := ran
  rw [markPathsToRoot, bind_eq_ok] at ran
  obtain ⟨_, some, ran⟩ := ran
  obtain ⟨marked, loop, _⟩ := bind_eq_ok.mp ran
  have some := check_eq_ok.mp some
  obtain ⟨_, inRange, distinct⟩ := foldlM_preserves
    (fun done mask => LeavesMarked n done mask ∧ (∀ i ∈ done, i < n) ∧ done.Nodup)
    ⟨leavesMarked_nil n, by simp, List.nodup_nil⟩ (by
      rintro done i mask after isPrefix ⟨marks, inRange, distinct⟩ stepped
      obtain ⟨bound, unmarked, rfl⟩ := markLeaf_eq_ok.mp stepped
      refine ⟨marks.step bound, ?_, ?_⟩
      · intro j member
        rcases List.mem_append.mp member with earlier | last
        · exact inRange j earlier
        · exact (List.mem_singleton.mp last) ▸ bound
      · refine List.nodup_append.mpr ⟨distinct, List.nodup_singleton i, ?_⟩
        rintro j earlier k last rfl
        obtain rfl := List.mem_singleton.mp last
        have found : mask[j + n]? = Option.some true :=
          (marks.leaf (by omega) (by omega)).mpr (by simpa using earlier)
        rw [unmarked] at found
        cases found) loop
  obtain ⟨mask', ran', marks⟩ := markPathsToRoot_returns some inRange distinct
  rw [whole] at ran'
  obtain rfl : mask = mask' := by simpa using ran'
  exact ⟨some, inRange, distinct, marks⟩

/-! ### The frontier -/

/-- The child that node `i` is missing, read off the mask. -/
def missing (mask : List Bool) (i : Nat) : Option Nat :=
  if mask[i]? = some true then
    if mask[2 * i]? = some true ∧ mask[2 * i + 1]? = some false then some (2 * i + 1)
    else if mask[2 * i]? = some false ∧ mask[2 * i + 1]? = some true then some (2 * i)
    else none
  else none

/-- The off-path children of on-path nodes, last node first. -/
def frontier (n : Nat) (mask : List Bool) : List Nat := (innerNodes n).filterMap (missing mask)

theorem missingChild_eq (size : mask.length = 2 * n) (inside : i < n) :
    (missingChild mask i : Exec ε (Option Nat)) = .ok (missing mask i) := by
  have ownBound : i < mask.length := by omega
  have leftBound : 2 * i < mask.length := by omega
  have rightBound : 2 * i + 1 < mask.length := by omega
  rw [missingChild, getAt_of_lt ownBound, getAt_of_lt leftBound, getAt_of_lt rightBound, missing,
    List.getElem?_eq_getElem ownBound, List.getElem?_eq_getElem leftBound,
    List.getElem?_eq_getElem rightBound]
  cases mask[i] <;> cases mask[2 * i] <;> cases mask[2 * i + 1] <;> rfl

theorem missing_lt {child : Nat} (size : mask.length = 2 * n)
    (found : missing mask i = some child) : child < 2 * n := by
  unfold missing at found
  split at found
  · split at found
    · obtain rfl : 2 * i + 1 = child := by simpa using found
      have := (List.getElem?_eq_some_iff.mp (by assumption : _ ∧ _).2).1
      omega
    · split at found
      · obtain rfl : 2 * i = child := by simpa using found
        have := (List.getElem?_eq_some_iff.mp (by assumption : _ ∧ _).1).1
        omega
      · cases found
  · cases found

theorem Marks.children (marks : Marks n indices mask) (low : 1 ≤ i)
    (high : i < n) (here : mask[i]? = some true) {child : Nat}
    (isChild : child = 2 * i ∨ child = 2 * i + 1) :
    mask[child]? = some true ∨ child ∈ frontier n mask := by
  have leftBound : 2 * i < mask.length := by rw [marks.length]; omega
  have rightBound : 2 * i + 1 < mask.length := by rw [marks.length]; omega
  have one := (marks.node low high).mp here
  by_cases marked : mask[child]? = some true
  · exact Or.inl marked
  · refine Or.inr (List.mem_filterMap.mpr ⟨i, mem_innerNodes.mpr ⟨low, high⟩, ?_⟩)
    rw [missing, if_pos here]
    rw [List.getElem?_eq_getElem leftBound, List.getElem?_eq_getElem rightBound] at one ⊢
    rcases isChild with rfl | rfl
    · rw [List.getElem?_eq_getElem leftBound] at marked
      have off : mask[2 * i] = false := by simpa using marked
      have on : mask[2 * i + 1] = true := by simpa [off] using one
      simp [off, on]
    · rw [List.getElem?_eq_getElem rightBound] at marked
      have off : mask[2 * i + 1] = false := by simpa using marked
      have on : mask[2 * i] = true := by simpa [off] using one
      simp [off, on]

theorem foldlM_pushMissing {heap : MerkleHeap} {nodes : List Nat}
    (size : mask.length = 2 * n) (filled : heap.layers.length = 2 * n)
    (inside : ∀ i ∈ nodes, i < n) (proof : List Digest) :
    ∃ path, (nodes.foldlM (pushMissing heap mask) proof : Exec ε (List Digest)) =
        .ok (proof ++ path) ∧
      path.map some = (nodes.filterMap (missing mask)).map (heap.layers[·]?) := by
  induction nodes generalizing proof with
  | nil => exact ⟨[], by simp, rfl⟩
  | cons i nodes ih =>
    have rest := fun proof => ih (fun j member => inside j (List.mem_cons_of_mem _ member)) proof
    have here := missingChild_eq (ε := ε) size (inside i (List.mem_cons_self ..))
    cases found : missing mask i with
    | none =>
      obtain ⟨path, ran, digests⟩ := rest proof
      refine ⟨path, ?_, by rw [List.filterMap_cons_none found, digests]⟩
      rw [List.foldlM_cons, pushMissing, here, ok_bind, found]
      exact ran
    | some child =>
      have bound : child < heap.layers.length := filled ▸ missing_lt size found
      obtain ⟨path, ran, digests⟩ := rest (proof ++ [heap.layers[child]])
      refine ⟨heap.layers[child] :: path, ?_, ?_⟩
      · rw [List.foldlM_cons, pushMissing, here, ok_bind, found]
        simp only [getAt_of_lt bound, ok_bind, pure_eq_ok]
        rw [ran, List.append_assoc, List.singleton_append]
      · rw [List.filterMap_cons_some found, List.map_cons, List.map_cons, digests,
          List.getElem?_eq_getElem bound]

variable {state : List (Option Digest) × Nat} {hash : Digest → Digest → Digest}
  {leaves : List (Nat × Digest)} {nodes : List (Option Digest)}

theorem foldlM_populateAt {proof : List Digest} {nodes : List Nat}
    {cells : List (Option Digest)} {used : Nat} (size : mask.length = 2 * n)
    (room : cells.length = 2 * n) (inside : ∀ i ∈ nodes, i < n) (left : used ≤ proof.length) :
    nodes.foldlM (populateAt mask proof) (cells, used) = .ok state ↔
      used + (nodes.filterMap (missing mask)).length ≤ proof.length ∧
        state = (assign ((nodes.filterMap (missing mask)).zip (proof.drop used)) cells,
          used + (nodes.filterMap (missing mask)).length) := by
  induction nodes generalizing cells used with
  | nil => simp [left, eq_comm]
  | cons i nodes ih =>
    have later : ∀ j ∈ nodes, j < n := fun j member => inside j (List.mem_cons_of_mem _ member)
    have here := missingChild_eq (ε := MerkleError) size (inside i (List.mem_cons_self ..))
    cases found : missing mask i with
    | none =>
      rw [List.foldlM_cons, populateAt, here, ok_bind, found, List.filterMap_cons_none found]
      exact ih room later left
    | some child =>
      rw [List.foldlM_cons, populateAt, here, ok_bind, found, List.filterMap_cons_some found,
        List.length_cons]
      by_cases more : used < proof.length
      · have bound : child < cells.length := room ▸ missing_lt size found
        simp only [check_of more, getAt_of_lt more, setAt_of_lt bound, ok_bind, pure_eq_ok]
        rw [ih (by rw [List.length_set, room]) later more, List.drop_eq_getElem_cons more,
          List.zip_cons_cons, assign_cons, Nat.succ_eq_add_one, Nat.add_assoc,
          Nat.add_comm 1]
      · constructor
        · intro ran
          simp only [check, if_neg more] at ran
          exact absurd ran (raise_ne_ok _ _)
        · rintro ⟨enough, _⟩
          omega

theorem generateProof_eq {heap : MerkleHeap}
    (masked : markPathsToRoot heap.numLeaves indices = .ok mask)
    (filled : heap.layers.length = 2 * heap.numLeaves) :
    ∃ path, (heap.generateProof indices : Exec ε (List Digest)) = .ok path ∧
      path.map some = (frontier heap.numLeaves mask).map (heap.layers[·]?) := by
  have marks := (markPathsToRoot_marks masked).2.2.2
  obtain ⟨path, ran, digests⟩ := foldlM_pushMissing (ε := ε) marks.length filled
    (fun i member => (mem_innerNodes.mp member).2) []
  refine ⟨path, ?_, digests⟩
  rw [MerkleHeap.generateProof, masked]
  exact ran

/-! ### The verifier's array -/

/-- The nodes known before hashing: the frontier from the opening, and the opened leaves. -/
def knownNodes (n : Nat) (mask : List Bool) (proof : List Digest) (leaves : List (Nat × Digest)) :
    List (Option Digest) :=
  assign (leaves.map fun leaf => (leaf.1 + n, leaf.2))
    (assign ((frontier n mask).zip proof) (List.replicate (2 * n) none))

/-- What replaying an opening leaves in the verifier's array. -/
structure Replayed (hash : Digest → Digest → Digest) (n : Nat) (proof : List Digest)
    (leaves : List (Nat × Digest)) (mask : List Bool) (nodes : List (Option Digest)) : Prop where
  marks : Marks n (leaves.map Prod.fst) mask
  inRange : ∀ i ∈ leaves.map Prod.fst, i < n
  distinct : (leaves.map Prod.fst).Nodup
  filled : Filled (joinChildren hash) n (knownNodes n mask proof leaves) nodes

theorem populate_eq_ok {proof : List Digest}
    (size : mask.length = 2 * n) :
    (innerNodes n).foldlM (populateAt mask proof) (List.replicate (2 * n) none, 0) = .ok state ↔
      (frontier n mask).length ≤ proof.length ∧
        state = (assign ((frontier n mask).zip proof) (List.replicate (2 * n) none),
          (frontier n mask).length) := by
  rw [foldlM_populateAt size List.length_replicate (fun i member => (mem_innerNodes.mp member).2)
    (Nat.zero_le _), List.drop_zero, Nat.zero_add, frontier]

/-- **An opening as long as the frontier is replayed.** -/
theorem replay_returns {proof : List Digest}
    (masked : markPathsToRoot n (leaves.map Prod.fst) = .ok mask)
    (size : proof.length = (frontier n mask).length) :
    ∃ nodes, replay hash n proof leaves = .ok nodes ∧ Replayed hash n proof leaves mask nodes := by
  obtain ⟨nonempty, inRange, distinct, marks⟩ := markPathsToRoot_marks masked
  obtain ⟨first, others, shape⟩ := List.exists_cons_of_ne_nil nonempty
  have pos : 1 ≤ n := by
    have := inRange first (shape ▸ List.mem_cons_self ..)
    omega
  have populated : (innerNodes n).foldlM (populateAt mask proof)
      (List.replicate (2 * n) none, 0) = .ok _ :=
    (populate_eq_ok marks.length).mpr ⟨size.ge, rfl⟩
  have opened : ((leaves.map fun leaf => (leaf.1 + n, leaf.2)).foldlM
      (fun nodes write => setAt nodes write.1 (some write.2))
      (assign ((frontier n mask).zip proof) (List.replicate (2 * n) none)) :
        Exec MerkleError (List (Option Digest))) = .ok (knownNodes n mask proof leaves) := by
    refine foldlM_setAt fun write member => ?_
    obtain ⟨leaf, isLeaf, rfl⟩ := List.mem_map.mp member
    have bound := inRange leaf.1 (List.mem_map_of_mem isLeaf)
    rw [length_assign, List.length_replicate]
    show leaf.1 + n < 2 * n
    omega
  have room : (knownNodes n mask proof leaves).length = 2 * n := by simp [knownNodes]
  obtain ⟨nodes, passed, filled⟩ := bottomUp_returns (ε := MerkleError) (joinChildren hash) pos room
  refine ⟨nodes, ?_, marks, inRange, distinct, filled⟩
  rw [replay, masked, ok_bind, populated, ok_bind]
  simp only [check_of size.symm, ok_bind, opened, passed]

/-- **A replayed opening is as long as the frontier.** -/
theorem replay_replayed {proof : List Digest}
    (ran : replay hash n proof leaves = .ok nodes) :
    ∃ mask, markPathsToRoot n (leaves.map Prod.fst) = .ok mask ∧
      proof.length = (frontier n mask).length ∧ Replayed hash n proof leaves mask nodes := by
  have whole := ran
  rw [replay, bind_eq_ok] at ran
  obtain ⟨mask, masked, ran⟩ := ran
  obtain ⟨⟨cells, used⟩, populated, ran⟩ := bind_eq_ok.mp ran
  obtain ⟨_, sized, _⟩ := bind_eq_ok.mp ran
  have marks := (markPathsToRoot_marks masked).2.2.2
  obtain ⟨_, state⟩ := (populate_eq_ok marks.length).mp populated
  have size : proof.length = (frontier n mask).length := by
    rw [← check_eq_ok.mp sized]
    exact congrArg Prod.snd state
  obtain ⟨nodes', ran', replayed⟩ : ∃ nodes', replay hash n proof leaves = .ok nodes' ∧
      Replayed hash n proof leaves mask nodes' := replay_returns masked size
  rw [whole] at ran'
  obtain rfl : nodes = nodes' := by simpa using ran'
  exact ⟨mask, masked, size, replayed⟩

section

variable (some : leaves ≠ [])
  (inRange : ∀ leaf ∈ leaves, leaf.1 < n) (distinct : (leaves.map Prod.fst).Nodup)
include some inRange distinct

/-- **Replaying an opening of distinct indices in range does not panic**, however long it is. -/
theorem replay_safe {proof : List Digest} :
    Safe (replay hash n proof leaves) fun nodes => nodes.length = 2 * n := by
  have bound : ∀ i ∈ leaves.map Prod.fst, i < n := fun i member => by
    obtain ⟨leaf, isLeaf, rfl⟩ := List.mem_map.mp member
    exact inRange leaf isLeaf
  obtain ⟨mask, masked, marks⟩ := markPathsToRoot_returns (by simpa using some) bound distinct
  have pos : 1 ≤ n := by
    obtain ⟨first, others, rfl⟩ := List.exists_cons_of_ne_nil some
    have := inRange first (List.mem_cons_self ..)
    omega
  have populated : Safe ((innerNodes n).foldlM (populateAt mask proof)
      (List.replicate (2 * n) none, 0)) fun state => state.1.length = 2 * n := by
    refine safe_foldlM (fun state : List (Option Digest) × Nat => state.1.length = 2 * n)
      List.length_replicate ?_
    intro state i inner size
    rw [populateAt, missingChild_eq marks.length (mem_innerNodes.mp inner).2, ok_bind]
    cases found : missing mask i with
    | none => exact safe_pure size
    | some child =>
      have place : child < state.1.length := size ▸ missing_lt marks.length found
      refine (safe_check _ _).bind fun _ more => ?_
      rw [getAt_of_lt more, ok_bind, setAt_of_lt place, ok_bind]
      exact safe_pure (by rw [List.length_set, size])
  rw [replay, masked, ok_bind]
  refine populated.bind fun state size => (safe_check _ _).bind fun _ _ => ?_
  have written : ((leaves.map fun leaf => (leaf.1 + n, leaf.2)).foldlM
      (fun nodes write => setAt nodes write.1 (Option.some write.2)) state.1 :
        Exec MerkleError (List (Option Digest))) = .ok _ := foldlM_setAt fun write member => by
    obtain ⟨leaf, isLeaf, rfl⟩ := List.mem_map.mp member
    have := inRange leaf isLeaf
    show leaf.1 + n < state.1.length
    omega
  obtain ⟨nodes, passed, filled⟩ := bottomUp_returns (ε := MerkleError) (joinChildren hash) pos
    (show (assign (leaves.map fun leaf => (leaf.1 + n, leaf.2)) state.1).length = 2 * n by
      rw [length_assign, size])
  rw [written, ok_bind, passed]
  exact safe_ok rfl (by rw [filled.length, length_assign, size])

/-- **The verifier of openings of distinct indices in range does not panic.** -/
theorem verifyProofWithHash_safe {root : Digest}
    {proof : List Digest} :
    Safe (verifyProofWithHash n root proof leaves hash) fun _ => True := by
  refine (replay_safe some inRange distinct).bind fun nodes size => ?_
  have pos : 1 < nodes.length := by
    obtain ⟨first, others, rfl⟩ := List.exists_cons_of_ne_nil some
    have := inRange first (List.mem_cons_self ..)
    omega
  rw [getAt_of_lt pos, ok_bind]
  cases nodes[1] with
  | none => exact safe_raise _ _
  | some digest => exact (safe_check _ _).mono fun _ _ => trivial

end

/-! ### Known nodes -/

section Known

variable {proof : List Digest}

theorem Replayed.leaf_eq (replayed : Replayed hash n proof leaves mask nodes) {i : Nat}
    {digest : Digest} (member : (i, digest) ∈ leaves) : nodes[i + n]? = some (some digest) := by
  have bound := replayed.inRange i (List.mem_map_of_mem member)
  rw [replayed.filled.leaf (by omega)]
  refine assign_getElem?_of_mem ?_ (List.mem_map.mpr ⟨(i, digest), member, rfl⟩) ?_
  · have shifted : (leaves.map fun leaf => (leaf.1 + n, leaf.2)).map Prod.fst =
        (leaves.map Prod.fst).map (· + n) := by simp
    rw [shifted]
    exact replayed.distinct.map fun _ _ => Nat.add_right_cancel
  · rw [length_assign, List.length_replicate]
    omega

variable {v : Nat}

theorem knownNodes_cases {digest : Digest}
    (known : (knownNodes n mask proof leaves)[v]? = some (some digest)) :
    (v, digest) ∈ (frontier n mask).zip proof ∨
      ∃ leaf ∈ leaves, v = leaf.1 + n ∧ digest = leaf.2 := by
  rcases mem_of_assign_getElem? known with member | earlier
  · obtain ⟨leaf, isLeaf, same⟩ := List.mem_map.mp member
    exact Or.inr ⟨leaf, isLeaf, by simp_all⟩
  · rcases mem_of_assign_getElem? earlier with member | absent
    · exact Or.inl member
    · simp [List.getElem?_replicate] at absent

theorem Replayed.known_of_before (replayed : Replayed hash n proof leaves mask nodes) (low : 1 ≤ v)
    (before : ∃ digest, (knownNodes n mask proof leaves)[v]? = some (some digest)) :
    ∃ digest, nodes[v]? = some (some digest) := by
  by_cases high : v < n
  · obtain ⟨old, left, right, was, _, _, here⟩ := replayed.filled.node low high
    obtain ⟨digest, known⟩ := before
    obtain rfl : old = some digest := by simpa using was.symm.trans known
    rw [here]
    cases left <;> cases right <;> simp [joinChildren]
  · rw [replayed.filled.leaf (by omega)]
    exact before

variable (replayed : Replayed hash n proof leaves mask nodes)
  (size : proof.length = (frontier n mask).length) (low : 1 ≤ v)
include replayed size low

theorem Replayed.known_of_frontier (member : v ∈ frontier n mask) :
    ∃ digest, nodes[v]? = some (some digest) := by
  refine replayed.known_of_before low (exists_assign_getElem? (Or.inl ?_))
  refine exists_assign_getElem? (Or.inr ⟨?_, ?_⟩)
  · rwa [List.map_fst_zip size.ge]
  · obtain ⟨i, _, found⟩ := List.mem_filterMap.mp member
    rw [List.length_replicate]
    exact missing_lt replayed.marks.length found

/-- **Every on-path node is known**, and above the leaves it is the hash of its children. -/
theorem Replayed.known_of_marked (here : mask[v]? = some true) :
    (∃ digest, nodes[v]? = some (some digest)) ∧ (v < n → ∃ left right,
      nodes[2 * v]? = some (some left) ∧ nodes[2 * v + 1]? = some (some right) ∧
        nodes[v]? = some (some (hash left right))) := by
  have inside : v < 2 * n := replayed.marks.length ▸ (List.getElem?_eq_some_iff.mp here).1
  -- Descending induction: the children of a node are known before it.
  induction gap : 2 * n - v using Nat.strong_induction_on generalizing v with
  | _ gap ih =>
    by_cases inner : v < n
    · have child : ∀ c, c = 2 * v ∨ c = 2 * v + 1 → ∃ digest, nodes[c]? = some (some digest) := by
        intro c isChild
        rcases replayed.marks.children low inner here isChild with marked | missing
        · exact (ih (2 * n - c) (by omega) (by omega) marked (by omega) rfl).1
        · exact replayed.known_of_frontier size (by omega) missing
      obtain ⟨left, isLeft⟩ := child (2 * v) (Or.inl rfl)
      obtain ⟨right, isRight⟩ := child (2 * v + 1) (Or.inr rfl)
      obtain ⟨old, left', right', _, isLeft', isRight', value⟩ := replayed.filled.node low inner
      obtain rfl : left' = some left := by simpa using isLeft'.symm.trans isLeft
      obtain rfl : right' = some right := by simpa using isRight'.symm.trans isRight
      exact ⟨⟨hash left right, value⟩, fun _ => ⟨left, right, isLeft, isRight, value⟩⟩
    · refine ⟨?_, fun below => absurd below inner⟩
      have requested := (replayed.marks.leaf (by omega) inside).mp here
      obtain ⟨⟨i, digest⟩, member, same⟩ := List.mem_map.mp requested
      have position : i + n = v := by
        have : i = v - n := same
        omega
      exact ⟨digest, position ▸ replayed.leaf_eq member⟩

end Known

end Longfellow
