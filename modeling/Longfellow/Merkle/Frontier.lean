/-
**The length of an opening** (`runtime/ligero/src/geometry.rs`, `compile/polygero/src/lib.rs`).

Both backends estimate the size of a proof before there is one, from the largest number of digests
that an opening of `t` leaves can have.

* `generateProof_length_le` — **no opening is longer**, whichever leaves are queried.
-/

import Longfellow.Merkle.Completeness

namespace Longfellow

open Lib Finset

variable {ε : Type}

/-! ### The estimates -/

/-- The number of nodes on a level, or the largest machine word. -/
def levelWidth (level : Nat) : Nat := if level < 64 then 2 ^ level else 2 ^ 64 - 1

/-- The digests of an opening, for a path of `h` levels. -/
def merklePathLengthDigests (h nreq : Nat) : Nat :=
  (List.range' 1 (h - 1)).foldl
    (fun totalDigests level => totalDigests + min nreq (levelWidth level - nreq)) 0

/-- The largest shared frontier of `t` queries among `n` leaves. -/
def maximumSharedFrontier (n t : Nat) : Nat :=
  let queryLevel := Nat.clog 2 t
  t * (Nat.clog 2 n - queryLevel) + 2 ^ queryLevel - t

/-- The levels that the queries fill need nothing, the next one what is left of it, and each level
below a digest for each query. -/
theorem merklePathLengthDigests_add {t height : Nat} (fits : Nat.clog 2 t ≤ height)
    (some : 1 ≤ t) (small : height < 64) :
    merklePathLengthDigests (height + 1) t + t =
      t * (height - Nat.clog 2 t) + 2 ^ Nat.clog 2 t := by
  have next : ∀ levels, merklePathLengthDigests (levels + 2) t =
      merklePathLengthDigests (levels + 1) t + min t (levelWidth (levels + 1) - t) := by
    intro levels
    rw [merklePathLengthDigests, merklePathLengthDigests, Nat.add_sub_cancel,
      show levels + 2 - 1 = levels + 1 by omega, List.range'_concat, List.foldl_append]
    simp [Nat.add_comm 1]
  have width : ∀ level < 64, levelWidth level = 2 ^ level := fun level below => if_pos below
  induction height, fits using Nat.le_induction with
  | base =>
    have none : ∀ levels < Nat.clog 2 t, merklePathLengthDigests (levels + 1) t = 0 := by
      intro levels
      induction levels with
      | zero => intro _; rfl
      | succ level ih =>
        intro below
        have filled : 2 ^ (level + 1) < t :=
          (Nat.lt_clog_iff_pow_lt (by norm_num)).mp below
        rw [next, ih (by omega), width _ (by omega)]
        omega
    rw [Nat.sub_self, Nat.mul_zero, Nat.zero_add]
    have reach := Nat.le_pow_clog (b := 2) (by norm_num) t
    cases level : Nat.clog 2 t with
    | zero =>
      rw [level] at reach
      have one : t = 1 := by omega
      rw [one]
      rfl
    | succ last =>
      have below : 2 ^ last < t := (Nat.lt_clog_iff_pow_lt (by norm_num)).mp (by omega)
      rw [level] at reach
      rw [next, none last (by omega), width _ (by omega)]
      rw [pow_succ] at reach ⊢
      omega
  | succ height fits ih =>
    have wide : 2 * t ≤ 2 ^ (height + 1) := by
      have reach := Nat.le_pow_clog (b := 2) (by norm_num) t
      have grow := Nat.pow_le_pow_right (n := 2) (by norm_num) fits
      rw [pow_succ]
      omega
    rw [next, width _ small, min_eq_left (by omega), Nat.succ_sub fits, Nat.mul_succ]
    have before := ih (by omega)
    omega

/-- **The two estimates are the same number.** -/
theorem merklePathLengthDigests_eq {n t : Nat} (some : 1 ≤ t) (few : t ≤ n) (small : 2 * n < 2 ^ 64) :
    merklePathLengthDigests (merkleHeapLen n) t = maximumSharedFrontier n t := by
  have height : Nat.clog 2 n < 64 := by
    refine Nat.lt_succ_of_le ((Nat.clog_le_iff_le_pow (by norm_num)).mpr ?_)
    omega
  have total := merklePathLengthDigests_add (Nat.clog_mono_right 2 few) some height
  rw [merkleHeapLen, if_neg (by omega), maximumSharedFrontier]
  omega

/-! ### Openings -/

section

variable {n : Nat} {indices : List Nat} {mask : List Bool} (marks : Marks n indices mask)
include marks

theorem Marks.card_leaves (distinct : indices.Nodup) (inRange : ∀ i ∈ indices, i < n) :
    (markedLeaves n fun v => mask[v]? = some true).card = indices.length := by
  have same : (markedLeaves n fun v => mask[v]? = some true) =
      (indices.map (· + n)).toFinset := by
    ext v
    rw [markedLeaves, mem_filter, mem_Ico, List.mem_toFinset, List.mem_map]
    constructor
    · rintro ⟨⟨low, high⟩, here⟩
      exact ⟨v - n, (marks.leaf low high).mp here, by omega⟩
    · rintro ⟨i, requested, rfl⟩
      have bound := inRange i requested
      exact ⟨by omega, marks.requested requested bound⟩
  rw [same, List.toFinset_card_of_nodup (distinct.map (add_left_injective n)), List.length_map]

theorem Marks.length_frontier :
    (frontier n mask).length = (halfMarked n fun v => mask[v]? = some true).card := by
  have same : ((innerNodes n).filter fun i => (missing mask i).isSome).toFinset =
      halfMarked n fun v => mask[v]? = some true := by
    ext i
    rw [halfMarked, mem_filter, mem_Ico, List.mem_toFinset, List.mem_filter, mem_innerNodes]
    refine and_congr_right fun between => ?_
    obtain ⟨low, high⟩ := between
    have leftBound : 2 * i < mask.length := by rw [marks.length]; omega
    have rightBound : 2 * i + 1 < mask.length := by rw [marks.length]; omega
    have up := marks.node low high
    rw [List.getElem?_eq_getElem leftBound, List.getElem?_eq_getElem rightBound] at up
    rw [missing, List.getElem?_eq_getElem leftBound, List.getElem?_eq_getElem rightBound]
    by_cases here : mask[i]? = some true
    · rw [if_pos here]
      have one := up.mp here
      cases left : mask[2 * i] <;> cases right : mask[2 * i + 1] <;> simp_all
    · simp [here]
  rw [frontier, List.length_filterMap_eq_countP, List.countP_eq_length_filter, ← same,
    List.toFinset_card_of_nodup ((nodup_innerNodes n).filter _)]

end

/-- **No opening is longer than the estimates**, whichever leaves are queried. -/
theorem generateProof_length_le (hash : Digest → Digest → Digest) {leaves : List Digest}
    (small : 2 * leaves.length < 2 ^ 64) {indices : List Nat} (some : indices ≠ [])
    (distinct : indices.Nodup) (inRange : ∀ i ∈ indices, i < leaves.length) :
    ∃ heap path, (MerkleHeap.newWithHash leaves hash : Exec ε MerkleHeap) = .ok heap ∧
      (heap.generateProof indices : Exec ε (List Digest)) = .ok path ∧
      path.length ≤ merklePathLengthDigests (merkleHeapLen leaves.length) indices.length ∧
      path.length ≤ maximumSharedFrontier leaves.length indices.length := by
  obtain ⟨heap, _, path, mask, isNew, _, generated, _, marks, size⟩ : ∃ heap root path mask,
      (MerkleHeap.newWithHash leaves hash : Exec ε MerkleHeap) = .ok heap ∧ _ :=
    newWithHash_complete (ε := ε) some inRange distinct
  obtain ⟨first, member⟩ := List.exists_mem_of_ne_nil _ some
  have inside := inRange first member
  have root := marks.root (by omega) (marks.requested member inside)
  have bound := card_half_le marks.rooted (by omega) root
  have count := marks.card_leaves distinct inRange
  rw [count, ← marks.length_frontier, ← size] at bound
  have positive : 1 ≤ indices.length := List.length_pos_iff.mpr some
  have few : indices.length ≤ leaves.length := by
    have cover : indices ⊆ List.range leaves.length := fun i member =>
      List.mem_range.mpr (inRange i member)
    simpa using (List.subperm_of_subset distinct cover).length_le
  have short : path.length ≤ maximumSharedFrontier leaves.length indices.length := by
    rw [maximumSharedFrontier]
    omega
  exact ⟨heap, path, isNew, generated, (merklePathLengthDigests_eq positive few small).symm ▸ short,
    short⟩

/-- The first and the last leaf of a heap with three leaves, on two levels. -/
theorem generateProof_length_le_three : ∃ heap path,
    (MerkleHeap.newWithHash [default, default, default] (fun l _ => l) : Exec Unit MerkleHeap) =
      .ok heap ∧ (heap.generateProof [2, 0] : Exec Unit (List Digest)) = .ok path ∧
    path.length ≤ merklePathLengthDigests 3 2 ∧ path.length ≤ maximumSharedFrontier 3 2 :=
  generateProof_length_le (fun l _ => l) (show 2 * [default, default, default].length < 2 ^ 64 by
    decide) (by decide) (by decide) (by decide)

end Longfellow
