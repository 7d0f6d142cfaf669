/-
**Honest Merkle openings are accepted, and they are short.**

* `generateProof_complete` — **completeness** for the heap over `hash2`, with the bound the proof
  readers enforce.
-/

import Longfellow.Lib.Frontier
import Longfellow.Merkle.Binding

namespace Longfellow

open Lib

variable {ε : Type} {hash : Digest → Digest → Digest}

/-! ### Accepted -/

/-- The prover's heap over the given leaves. -/
structure Built (hash : Digest → Digest → Digest) (leaves : List Digest) (heap : MerkleHeap) :
    Prop where
  numLeaves : heap.numLeaves = leaves.length
  filled : Filled (fun _ left right => hash left right) leaves.length
    (List.replicate leaves.length default ++ leaves) heap.layers

variable {leaves : List Digest}

theorem newWithHash_built (pos : 1 ≤ leaves.length) :
    ∃ heap, (MerkleHeap.newWithHash leaves hash : Exec ε MerkleHeap) = .ok heap ∧
      Built hash leaves heap := by
  have size : (List.replicate leaves.length (default : Digest) ++ leaves).length =
      2 * leaves.length := by
    rw [List.length_append, List.length_replicate, Nat.two_mul]
  obtain ⟨layers, ran, filled⟩ := bottomUp_returns (ε := ε)
    (fun _ left right => hash left right) pos size
  refine ⟨⟨leaves.length, layers⟩, ?_, rfl, filled⟩
  rw [MerkleHeap.newWithHash, ensure_of (show leaves.length > 0 from pos), ok_bind,
    ran, ok_bind, pure_eq_ok]

variable {heap : MerkleHeap}

theorem Built.length (built : Built hash leaves heap) :
    heap.layers.length = 2 * leaves.length := by
  rw [built.filled.length, List.length_append, List.length_replicate, Nat.two_mul]

theorem Built.leaf (built : Built hash leaves heap) {i : Nat} (inRange : i < leaves.length) :
    heap.layers[i + leaves.length]? = some (leaves.getD i default) := by
  rw [built.filled.leaf (Nat.le_add_left _ _),
    List.getElem?_append_right (by simp), List.length_replicate, Nat.add_sub_cancel,
    List.getD_eq_getElem?_getD, List.getElem?_eq_getElem inRange, Option.getD_some]

variable {mask : List Bool}

theorem Replayed.agrees {proof : List Digest} {opened : List (Nat × Digest)}
    {nodes : List (Option Digest)} (replayed : Replayed hash leaves.length proof opened mask nodes)
    (built : Built hash leaves heap)
    (before : ∀ (v : Nat) digest, (knownNodes leaves.length mask proof opened)[v]? = some (some digest) →
      heap.layers[v]? = some digest) {v : Nat} (low : 1 ≤ v) {digest : Digest}
    (known : nodes[v]? = some (some digest)) :
    heap.layers[v]? = some digest := by
  induction gap : 2 * leaves.length - v using Nat.strong_induction_on generalizing v digest with
  | _ gap ih =>
    by_cases inner : v < leaves.length
    · obtain ⟨old, left, right, was, isLeft, isRight, here⟩ := replayed.filled.node low inner
      rw [here] at known
      cases left with
      | none => exact before v digest (was.trans known)
      | some l =>
        cases right with
        | none => exact before v digest (was.trans known)
        | some r =>
          obtain rfl : hash l r = digest := by simpa [joinChildren] using known
          have isLeft' := ih _ (by omega) (by omega) isLeft rfl
          have isRight' := ih _ (by omega) (by omega) isRight rfl
          obtain ⟨_, l', r', _, left', right', value⟩ := built.filled.node low inner
          obtain rfl : l = l' := by simpa using isLeft'.symm.trans left'
          obtain rfl : r = r' := by simpa using isRight'.symm.trans right'
          exact value
    · rw [replayed.filled.leaf (by omega)] at known
      exact before v digest known

/-- The leaves at the given indices, as the verifier receives them. -/
def openedLeaves (leaves : List Digest) (indices : List Nat) : List (Nat × Digest) :=
  indices.map fun i => (i, leaves.getD i default)

theorem map_fst_openedLeaves (leaves : List Digest) (indices : List Nat) :
    (openedLeaves leaves indices).map Prod.fst = indices := by
  simp [openedLeaves, Function.comp_def]

variable {indices : List Nat}

/-- **The opening of distinct leaves of a built heap is accepted.** -/
theorem Built.opens (built : Built hash leaves heap) (some : indices ≠ [])
    (inRange : ∀ i ∈ indices, i < leaves.length) (distinct : indices.Nodup) :
    ∃ root path mask, (heap.root : Exec ε Digest) = .ok root ∧
      (heap.generateProof indices : Exec ε (List Digest)) = .ok path ∧
      verifyProofWithHash leaves.length root path (openedLeaves leaves indices) hash = .ok () ∧
      Marks leaves.length indices mask ∧
      path.length = (frontier leaves.length mask).length := by
  obtain ⟨first, others, shape⟩ := List.exists_cons_of_ne_nil some
  have member : first ∈ indices := shape ▸ List.mem_cons_self ..
  have pos : 1 ≤ leaves.length := by
    have := inRange first member
    omega
  obtain ⟨mask, masked, marks⟩ := markPathsToRoot_returns some inRange distinct
  obtain ⟨path, generated, digests⟩ : ∃ path,
      (heap.generateProof indices : Exec ε (List Digest)) = .ok path ∧
        path.map Option.some = (frontier leaves.length mask).map (heap.layers[·]?) := by
    rw [← built.numLeaves] at masked ⊢
    exact generateProof_eq masked (by rw [built.numLeaves, built.length])
  have size : path.length = (frontier leaves.length mask).length := by
    simpa using congrArg List.length digests
  rw [← map_fst_openedLeaves leaves indices] at masked
  obtain ⟨nodes, ran, replayed⟩ : ∃ nodes,
      replay hash leaves.length path (openedLeaves leaves indices) = .ok nodes ∧
        Replayed hash leaves.length path (openedLeaves leaves indices) mask nodes :=
    replay_returns masked size
  have before : ∀ (v : Nat) digest, (knownNodes leaves.length mask path
      (openedLeaves leaves indices))[v]? = Option.some (Option.some digest) →
        heap.layers[v]? = Option.some digest := by
    intro v digest known
    rcases knownNodes_cases known with onFrontier | ⟨leaf, isLeaf, rfl, rfl⟩
    · obtain ⟨k, bound, same⟩ := List.mem_iff_getElem.mp onFrontier
      rw [List.getElem_zip] at same
      obtain ⟨rfl, rfl⟩ := Prod.mk.inj same
      rw [List.length_zip] at bound
      have here := congrArg (fun cells => cells[k]?) digests
      simpa [List.getElem?_map, List.getElem?_eq_getElem (show k < path.length by omega),
        List.getElem?_eq_getElem (show k < (frontier leaves.length mask).length by omega)]
        using here.symm
    · obtain ⟨i, requested, rfl⟩ := List.mem_map.mp isLeaf
      exact built.leaf (inRange i requested)
  have top : mask[1]? = Option.some true :=
    marks.root (by omega) (marks.requested member (inRange first member))
  obtain ⟨root, known⟩ := (replayed.known_of_marked size (le_refl 1) top).1
  have isRoot := replayed.agrees built before (le_refl 1) known
  refine ⟨root, path, mask, getAt_eq_ok.mpr isRoot, generated, ?_, marks, size⟩
  exact verifyProofWithHash_eq_ok.mpr ⟨nodes, ran, known⟩

theorem newWithHash_complete (some : indices ≠ []) (inRange : ∀ i ∈ indices, i < leaves.length)
    (distinct : indices.Nodup) :
    ∃ heap root path mask, (MerkleHeap.newWithHash leaves hash : Exec ε MerkleHeap) = .ok heap ∧
      (heap.root : Exec ε Digest) = .ok root ∧
      (heap.generateProof indices : Exec ε (List Digest)) = .ok path ∧
      verifyProofWithHash leaves.length root path (openedLeaves leaves indices) hash = .ok () ∧
      Marks leaves.length indices mask ∧
      path.length = (frontier leaves.length mask).length := by
  obtain ⟨first, member⟩ := List.exists_mem_of_ne_nil _ some
  have := inRange first member
  obtain ⟨heap, isNew, built⟩ : ∃ heap,
      (MerkleHeap.newWithHash leaves hash : Exec ε MerkleHeap) = .ok heap ∧ Built hash leaves heap :=
    newWithHash_built (by omega)
  obtain ⟨root, path, mask, opens⟩ := built.opens (ε := ε) some inRange distinct
  exact ⟨heap, root, path, mask, isNew, opens⟩

/-! ### Short -/

section

variable {n : Nat} (marks : Marks n indices mask)
include marks

theorem Marks.rooted :
    Rooted n fun v => mask[v]? = some true :=
  fun _ low high => marks.node low high

theorem Marks.above {v : Nat} (low : 1 ≤ v) (here : mask[v]? = some true) :
    ∃ leaf ∈ indices.map (· + n), v = leaf ∨ v ∈ ancestors leaf := by
  have inside : v < 2 * n := marks.length ▸ (List.getElem?_eq_some_iff.mp here).1
  obtain ⟨leaf, bound, bound', isMarked, above⟩ := marks.rooted.above low inside here
  have requested := (marks.leaf bound bound').mp isMarked
  exact ⟨leaf, List.mem_map.mpr ⟨leaf - n, requested, by omega⟩, above⟩

/-- **An opening of `t` leaves has at most `t` digests per level of the heap.** -/
theorem length_frontier_le (inRange : ∀ i ∈ indices, i < n) :
    (frontier n mask).length ≤ indices.length * merkleHeapLen n := by
  set nodes := (innerNodes n).filter fun i => (missing mask i).isSome with nodesDef
  have count : (frontier n mask).length = nodes.length := by
    rw [frontier, List.length_filterMap_eq_countP, nodesDef, List.countP_eq_length_filter]
  have bound : nodes.length ≤ (indices.map (· + n)).length * Nat.clog 2 n := by
    refine length_le_of_ancestors ((nodup_innerNodes n).filter _) ?_ ?_
    · intro v member
      obtain ⟨i, requested, rfl⟩ := List.mem_map.mp member
      have := inRange i requested
      show i + n < 2 * n
      omega
    · intro i member
      obtain ⟨inner, needs⟩ := List.mem_filter.mp member
      obtain ⟨low, high⟩ := mem_innerNodes.mp inner
      have here : mask[i]? = some true := by
        by_contra off
        simp [missing, off] at needs
      -- An inner node is not a leaf, so it lies strictly above one.
      obtain ⟨leaf, isLeaf, rfl | above⟩ := marks.above low here
      · obtain ⟨j, _, rfl⟩ := List.mem_map.mp isLeaf
        exact absurd high (by show ¬ j + n < n; omega)
      · exact ⟨leaf, isLeaf, above⟩
  calc (frontier n mask).length ≤ indices.length * Nat.clog 2 n := by
        rw [count]
        simpa using bound
    _ ≤ indices.length * merkleHeapLen n := by
        refine Nat.mul_le_mul_left _ ?_
        unfold merkleHeapLen
        split
        · rename_i empty
          simp [empty]
        · omega

end

/-- **Merkle completeness.** The opening that the prover generates for distinct leaves in range is
accepted against the root of its heap, and its path is no longer than what the readers of proofs
accept for that many queries. -/
theorem generateProof_complete (sha256 : Bytes → Digest) (leaves : List Digest)
    (indices : List Nat) (some : indices ≠ []) (distinct : indices.Nodup)
    (inRange : ∀ i ∈ indices, i < leaves.length) :
    ∃ heap root path, (MerkleHeap.new sha256 leaves : Exec ε MerkleHeap) = .ok heap ∧
      (heap.root : Exec ε Digest) = .ok root ∧
      (heap.generateProof indices : Exec ε (List Digest)) = .ok path ∧
      verifyProof sha256 leaves.length root path (openedLeaves leaves indices) = .ok () ∧
      path.length ≤ indices.length * merkleHeapLen leaves.length ∧
      ∀ maxSz, maxPathSize indices.length (merkleHeapLen leaves.length) = Option.some maxSz →
        path.length ≤ maxSz := by
  obtain ⟨heap, root, path, mask, isNew, isRoot, generated, accepted, marks, size⟩ :=
    newWithHash_complete (ε := ε) some inRange distinct
  have short : path.length ≤ indices.length * merkleHeapLen leaves.length :=
    size.le.trans (length_frontier_le marks inRange)
  refine ⟨heap, root, path, isNew, isRoot, generated, accepted, short, fun maxSz fits => ?_⟩
  unfold maxPathSize checkedMul at fits
  split at fits
  · exact Option.some.inj fits ▸ short
  · cases fits

/-- The first and the last leaf of a heap with three leaves. -/
theorem generateProof_complete_three :
    let leaves : List Digest := [default, ⟨Vector.replicate 32 1⟩, ⟨Vector.replicate 32 2⟩]
    ∃ heap root path, (MerkleHeap.new (fun _ => default) leaves : Exec Unit MerkleHeap) = .ok heap ∧
      (heap.root : Exec Unit Digest) = .ok root ∧
      (heap.generateProof [2, 0] : Exec Unit (List Digest)) = .ok path ∧
      verifyProof (fun _ => default) 3 root path (openedLeaves leaves [2, 0]) = .ok () ∧
      path.length ≤ 2 * merkleHeapLen 3 ∧
      ∀ maxSz, maxPathSize 2 (merkleHeapLen 3) = some maxSz → path.length ≤ maxSz :=
  generateProof_complete (fun _ => default) _ [2, 0] (by decide) (by decide) (by decide)

end Longfellow
