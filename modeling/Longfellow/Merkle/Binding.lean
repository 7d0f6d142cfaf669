/-
**A Merkle root binds its leaves.**

* `verifyProof_binding` — **binding and unique length** for the heap over `hash2`.
-/

import Longfellow.Merkle.Replay

namespace Longfellow

open Lib

/-- What a prover sends for some leaves: their indices with their digests, and the path. -/
structure Opening where
  leaves : List (Nat × Digest)
  path : List Digest

/-! ### The reduction -/

/-- Two inputs of the node hash. -/
abbrev NodePair := (Digest × Digest) × (Digest × Digest)

/-- The children of node `i` in two arrays, when they are distinct and hash alike. -/
def collisionAt (hash : Digest → Digest → Digest) (nodes₁ nodes₂ : List (Option Digest))
    (i : Nat) : Option NodePair :=
  match nodes₁[2 * i]?, nodes₁[2 * i + 1]?, nodes₂[2 * i]?, nodes₂[2 * i + 1]? with
  | some (some l₁), some (some r₁), some (some l₂), some (some r₂) =>
    if (l₁, r₁) ≠ (l₂, r₂) ∧ hash l₁ r₁ = hash l₂ r₂ then some ((l₁, r₁), (l₂, r₂)) else none
  | _, _, _, _ => none

/-- Find a collision of the node hash in two openings. -/
def extractCollision (hash : Digest → Digest → Digest) (n : Nat) (o₁ o₂ : Opening) :
    Option NodePair :=
  match replay hash n o₁.path o₁.leaves, replay hash n o₂.path o₂.leaves with
  | .ok nodes₁, .ok nodes₂ => (innerNodes n).findSome? (collisionAt hash nodes₁ nodes₂)
  | _, _ => none

variable {hash : Digest → Digest → Digest} {n : Nat}

variable {nodes₁ nodes₂ : List (Option Digest)}

theorem collisionAt_eq_some {i : Nat} {pair : NodePair}
    (found : collisionAt hash nodes₁ nodes₂ i = some pair) :
    pair.1 ≠ pair.2 ∧ hash pair.1.1 pair.1.2 = hash pair.2.1 pair.2.2 := by
  unfold collisionAt at found
  split at found
  · next l₁ r₁ l₂ r₂ _ _ _ _ =>
      by_cases collides : (l₁, r₁) ≠ (l₂, r₂) ∧ hash l₁ r₁ = hash l₂ r₂
      · rw [if_pos collides] at found
        obtain rfl := Option.some.inj found
        exact collides
      · rw [if_neg collides] at found
        cases found
  · cases found

/-! ### Accepted openings -/

variable {root : Digest}

variable {leaves : List (Nat × Digest)}

theorem verifyProofWithHash_eq_ok {proof : List Digest} :
    verifyProofWithHash n root proof leaves hash = .ok () ↔
      ∃ nodes, replay hash n proof leaves = .ok nodes ∧ nodes[1]? = some (some root) := by
  rw [verifyProofWithHash, bind_eq_ok]
  refine exists_congr fun nodes => and_congr_right fun _ => ?_
  rw [bind_eq_ok]
  constructor
  · rintro ⟨value, found, ran⟩
    rw [getAt_eq_ok] at found
    cases value with
    | none => exact absurd ran (raise_ne_ok _ _)
    | some digest => rw [check_eq_ok.mp ran, found]
  · intro found
    exact ⟨some root, getAt_eq_ok.mpr found, check_of rfl⟩

/-- Where two arrays differ at an on-path node, some node above it is a collision, or the roots
differ. -/
theorem collision_of_ne {proof₁ proof₂ : List Digest} {leaves₁ leaves₂ : List (Nat × Digest)}
    {mask₁ mask₂ : List Bool} (replayed₁ : Replayed hash n proof₁ leaves₁ mask₁ nodes₁)
    (replayed₂ : Replayed hash n proof₂ leaves₂ mask₂ nodes₂)
    (size₁ : proof₁.length = (frontier n mask₁).length)
    (size₂ : proof₂.length = (frontier n mask₂).length) (root₁ : nodes₁[1]? = some (some root))
    (root₂ : nodes₂[1]? = some (some root)) {v : Nat} (low : 1 ≤ v) (here₁ : mask₁[v]? = some true)
    (here₂ : mask₂[v]? = some true) (differ : nodes₁[v]? ≠ nodes₂[v]?) :
    ∃ i ∈ innerNodes n, (collisionAt hash nodes₁ nodes₂ i).isSome := by
  induction v using Nat.strong_induction_on with
  | _ v ih =>
    by_cases top : v = 1
    · subst top
      exact absurd (root₁.trans root₂.symm) differ
    have inside : v < 2 * n :=
      replayed₁.marks.length ▸ (List.getElem?_eq_some_iff.mp here₁).1
    have parent₁ := replayed₁.marks.parent (by omega) here₁
    have parent₂ := replayed₂.marks.parent (by omega) here₂
    obtain ⟨l₁, r₁, isLeft₁, isRight₁, value₁⟩ :=
      (replayed₁.known_of_marked size₁ (by omega) parent₁).2 (by omega)
    obtain ⟨l₂, r₂, isLeft₂, isRight₂, value₂⟩ :=
      (replayed₂.known_of_marked size₂ (by omega) parent₂).2 (by omega)
    have pairs : (l₁, r₁) ≠ (l₂, r₂) := by
      rintro same
      obtain ⟨rfl, rfl⟩ := Prod.mk.inj same
      rcases Nat.even_or_odd' v with ⟨k, rfl | rfl⟩
      · rw [show 2 * (2 * k / 2) = 2 * k by omega] at isLeft₁ isLeft₂
        exact differ (isLeft₁.trans isLeft₂.symm)
      · rw [show 2 * ((2 * k + 1) / 2) + 1 = 2 * k + 1 by omega] at isRight₁ isRight₂
        exact differ (isRight₁.trans isRight₂.symm)
    -- Either the parents' digests agree, which is a collision, or the difference climbs.
    by_cases same : hash l₁ r₁ = hash l₂ r₂
    · refine ⟨v / 2, mem_innerNodes.mpr (by omega), ?_⟩
      simp only [collisionAt, isLeft₁, isRight₁, isLeft₂, isRight₂, if_pos (And.intro pairs same),
        Option.isSome_some]
    · refine ih (v / 2) (by omega) (by omega) parent₁ parent₂ ?_
      rw [value₁, value₂]
      simpa using same

/-- **Two accepted openings that disagree on a leaf give a collision of the node hash.** -/
theorem verifyProofWithHash_collision {o₁ o₂ : Opening}
    (accepts₁ : verifyProofWithHash n root o₁.path o₁.leaves hash = .ok ())
    (accepts₂ : verifyProofWithHash n root o₂.path o₂.leaves hash = .ok ()) {i : Nat}
    {d₁ d₂ : Digest} (opened₁ : (i, d₁) ∈ o₁.leaves) (opened₂ : (i, d₂) ∈ o₂.leaves)
    (differ : d₁ ≠ d₂) :
    ∃ a b, extractCollision hash n o₁ o₂ = some (a, b) ∧ a ≠ b ∧
      hash a.1 a.2 = hash b.1 b.2 := by
  obtain ⟨nodes₁, ran₁, root₁⟩ := verifyProofWithHash_eq_ok.mp accepts₁
  obtain ⟨nodes₂, ran₂, root₂⟩ := verifyProofWithHash_eq_ok.mp accepts₂
  obtain ⟨mask₁, _, size₁, replayed₁⟩ := replay_replayed ran₁
  obtain ⟨mask₂, _, size₂, replayed₂⟩ := replay_replayed ran₂
  have member₁ : i ∈ o₁.leaves.map Prod.fst := List.mem_map_of_mem opened₁
  have member₂ : i ∈ o₂.leaves.map Prod.fst := List.mem_map_of_mem opened₂
  have bound := replayed₁.inRange i member₁
  have apart : nodes₁[i + n]? ≠ nodes₂[i + n]? := by
    rw [replayed₁.leaf_eq opened₁, replayed₂.leaf_eq opened₂]
    simpa using differ
  obtain ⟨j, inner, collides⟩ := collision_of_ne replayed₁ replayed₂ size₁ size₂ root₁ root₂
    (by omega) (replayed₁.marks.requested member₁ bound)
    (replayed₂.marks.requested member₂ bound) apart
  have extracted : extractCollision hash n o₁ o₂ =
      (innerNodes n).findSome? (collisionAt hash nodes₁ nodes₂) := by
    rw [extractCollision, ran₁, ran₂]
  obtain ⟨⟨a, b⟩, found⟩ : ∃ pair, (innerNodes n).findSome? (collisionAt hash nodes₁ nodes₂) =
      some pair := Option.isSome_iff_exists.mp (List.findSome?_isSome_iff.mpr ⟨j, inner, collides⟩)
  obtain ⟨k, _, atNode⟩ := List.exists_of_findSome?_eq_some found
  exact ⟨a, b, extracted.trans found, collisionAt_eq_some atNode⟩

theorem verifyProofWithHash_length {proof : List Digest}
    (accepts : verifyProofWithHash n root proof leaves hash = .ok ()) :
    ∃ mask, markPathsToRoot n (leaves.map Prod.fst) = .ok mask ∧
      proof.length = (frontier n mask).length := by
  obtain ⟨nodes, ran, _⟩ := verifyProofWithHash_eq_ok.mp accepts
  obtain ⟨mask, masked, size, _⟩ := replay_replayed ran
  exact ⟨mask, masked, size⟩

/-- **Merkle binding.** From two accepted openings of one root that disagree on a leaf, the
reduction returns two distinct inputs of `hash2` with the same output; and the length of an
accepted path is a function of the number of leaves and the list of indices. -/
theorem verifyProof_binding (sha256 : Bytes → Digest) (n : Nat) :
    (∀ (root : Digest) (o₁ o₂ : Opening), verifyProof sha256 n root o₁.path o₁.leaves = .ok () →
      verifyProof sha256 n root o₂.path o₂.leaves = .ok () →
      ∀ i d₁ d₂, (i, d₁) ∈ o₁.leaves → (i, d₂) ∈ o₂.leaves → d₁ ≠ d₂ →
        ∃ a b, extractCollision (hash2 sha256) n o₁ o₂ = some (a, b) ∧ a ≠ b ∧
          hash2 sha256 a.1 a.2 = hash2 sha256 b.1 b.2) ∧
    ∀ indices : List Nat, ∃ length, ∀ (root : Digest) (o : Opening),
      o.leaves.map Prod.fst = indices →
      verifyProof sha256 n root o.path o.leaves = .ok () → o.path.length = length := by
  refine ⟨fun root o₁ o₂ accepts₁ accepts₂ i d₁ d₂ opened₁ opened₂ differ => ?_, fun indices => ?_⟩
  · exact verifyProofWithHash_collision accepts₁ accepts₂ opened₁ opened₂ differ
  · cases masked : markPathsToRoot n indices with
    | error fault =>
      refine ⟨0, fun root o same accepts => ?_⟩
      obtain ⟨mask, masked', _⟩ := verifyProofWithHash_length accepts
      rw [same, masked] at masked'
      cases masked'
    | ok mask =>
      refine ⟨(frontier n mask).length, fun root o same accepts => ?_⟩
      obtain ⟨mask', masked', size⟩ := verifyProofWithHash_length accepts
      rw [same, masked] at masked'
      obtain rfl : mask = mask' := by simpa using masked'
      exact size

/-- Over a constant hash, the two openings of leaf `0` of a heap with two leaves collide. -/
theorem verifyProof_binding_constant :
    let zero : Digest := default
    let one : Digest := ⟨Vector.replicate 32 1⟩
    let o₁ : Opening := ⟨[(0, zero)], [zero]⟩
    let o₂ : Opening := ⟨[(0, one)], [zero]⟩
    ∃ a b, extractCollision (hash2 fun _ => zero) 2 o₁ o₂ = some (a, b) ∧ a ≠ b ∧
      hash2 (fun _ => zero) a.1 a.2 = hash2 (fun _ => zero) b.1 b.2 := by
  intro zero one o₁ o₂
  exact (verifyProof_binding (fun _ => zero) 2).1 zero o₁ o₂ rfl rfl 0 zero one
    (by simp [o₁]) (by simp [o₂]) (by decide)

end Longfellow
