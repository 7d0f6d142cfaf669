/-
**The Merkle heap** (`runtime/merkle/src/heap.rs`).

A heap with `numLeaves` leaves is an array of `2 * numLeaves` digests: leaves at the back, the root
at `1`. An opening of several leaves carries the digests of the frontier, the off-path children of
on-path nodes, from the last inner node to the first. The hash of two children is a parameter, as
in the code; `hash2` is the one of the plain heap, over an arbitrary `sha256`.

* `markPathsToRoot` — the mask of the nodes above the requested leaves.
-/

import Longfellow.Lib.Heap
import Longfellow.Proto.Merkle

namespace Longfellow

open Lib

/-- The errors of the Merkle verifier. -/
inductive MerkleError where
  | invalidNonceLength (expected found : Nat)
  | duplicateLeafIndex (index : Nat)
  | leafIndexOutOfBounds (index numLeaves : Nat)
  | proofLengthMismatch (expected found : Nat)
  | rootMismatch (expected found : Digest)
  | emptyLeaves
  | leafIndexNotOnPath
  deriving DecidableEq, Repr

/-- The bytes of a digest as a list of numbers. -/
def digestText (digest : Digest) : String :=
  "[" ++ String.intercalate ", " (digest.data.toList.map fun byte => toString byte.toNat) ++ "]"

/-- The text of an error. -/
def MerkleError.message : MerkleError → String
  | .invalidNonceLength expected found =>
    s!"invalid nonce length in proof: expected {expected}, found {found}"
  | .duplicateLeafIndex index => s!"duplicate leaf index requested: {index}"
  | .leafIndexOutOfBounds index numLeaves =>
    s!"leaf index {index} out of bounds (tree has {numLeaves} leaves)"
  | .proofLengthMismatch expected found =>
    s!"proof length mismatch: expected {expected}, found {found}"
  | .rootMismatch expected found =>
    "root mismatch: expected root " ++ digestText expected ++ ", computed root " ++ digestText found
  | .emptyLeaves => "empty leaves requested for verification"
  | .leafIndexNotOnPath => "leaf index is not on the path to the root"

/-- The height of a heap: the exponent of the next power of two, plus one. -/
def merkleHeapLen (numLeaves : Nat) : Nat :=
  if numLeaves = 0 then 0 else Nat.clog 2 numLeaves + 1

/-! ### The path mask -/

/-- Mark one requested leaf. -/
def markLeaf (numLeaves : Nat) (isNodeOnPath : List Bool) (leafIdx : Nat) :
    Exec MerkleError (List Bool) := do
  check (leafIdx < numLeaves) (.leafIndexOutOfBounds leafIdx numLeaves)
  let marked ← getAt isNodeOnPath (leafIdx + numLeaves)
  check (marked = false) (.duplicateLeafIndex leafIdx)
  setAt isNodeOnPath (leafIdx + numLeaves) true

/-- The mask of the nodes on a path from a requested leaf to the root. -/
def markPathsToRoot (numLeaves : Nat) (leafIndices : List Nat) : Exec MerkleError (List Bool) := do
  check (leafIndices ≠ []) .emptyLeaves
  let marked ← leafIndices.foldlM (markLeaf numLeaves) (List.replicate (2 * numLeaves) false)
  let isNodeOnPath ← bottomUp (fun _ left right => left || right) numLeaves marked
  let top ← getAt isNodeOnPath 1
  check (top = true) .leafIndexNotOnPath
  pure isNodeOnPath

/-- The off-path child of an on-path node that has exactly one child on a path. -/
def missingChild {ε : Type} (isNodeOnPath : List Bool) (i : Nat) : Exec ε (Option Nat) := do
  let here ← getAt isNodeOnPath i
  if here then
    let left ← getAt isNodeOnPath (2 * i)
    let right ← getAt isNodeOnPath (2 * i + 1)
    if left && !right then pure (some (2 * i + 1))
    else if !left && right then pure (some (2 * i))
    else pure none
  else pure none

/-! ### The heap -/

/-- A built Merkle heap. -/
structure MerkleHeap where
  numLeaves : Nat
  layers : List Digest
  deriving DecidableEq, Repr

variable {ε : Type}

/-- Build a heap over the leaves with the given hash of two children. -/
def MerkleHeap.newWithHash (leaves : List Digest) (hash : Digest → Digest → Digest) :
    Exec ε MerkleHeap := do
  ensure (leaves.length > 0) "Cannot construct an empty Merkle heap"
  let layers ← bottomUp (fun _ left right => hash left right) leaves.length
    (List.replicate leaves.length default ++ leaves)
  pure ⟨leaves.length, layers⟩

/-- The root digest. -/
def MerkleHeap.root (heap : MerkleHeap) : Exec ε Digest := getAt heap.layers 1

/-- Append the digest that node `i` needs, if it needs one. -/
def pushMissing (heap : MerkleHeap) (isNodeOnPath : List Bool) (proof : List Digest) (i : Nat) :
    Exec ε (List Digest) := do
  match ← missingChild isNodeOnPath i with
  | some child => do
    let digest ← getAt heap.layers child
    pure (proof ++ [digest])
  | none => pure proof

/-- The value of a call that must not fail. -/
def unwrapOr {ε' α : Type} (outcome : Exec ε' α) (message : String) : Exec ε α :=
  match outcome with
  | .ok a => pure a
  | .error (.err _) => abort message
  | .error (.panic inner) => abort inner

/-- The opening of several leaves: the digests of the frontier. -/
def MerkleHeap.generateProof (heap : MerkleHeap) (leafIndices : List Nat) :
    Exec ε (List Digest) := do
  let isNodeOnPath ← unwrapOr (markPathsToRoot heap.numLeaves leafIndices)
    "Invalid leaf indices for proof generation"
  (innerNodes heap.numLeaves).foldlM (pushMissing heap isNodeOnPath) []

/-! ### The verifier -/

/-- Place the next digest of the opening where node `i` needs it; the state is the array of
known nodes and the position in the opening. -/
def populateAt (isNodeOnPath : List Bool) (proof : List Digest)
    (state : List (Option Digest) × Nat) (i : Nat) :
    Exec MerkleError (List (Option Digest) × Nat) := do
  match ← missingChild isNodeOnPath i with
  | some child => do
    check (state.2 < proof.length) (.proofLengthMismatch (state.2 + 1) proof.length)
    let digest ← getAt proof state.2
    let nodes ← setAt state.1 child (some digest)
    pure (nodes, state.2 + 1)
  | none => pure state

/-- The digest of a node whose children are both known. -/
def joinChildren (hash : Digest → Digest → Digest) (old left right : Option Digest) :
    Option Digest :=
  match left, right with
  | some l, some r => some (hash l r)
  | _, _ => old

/-- All nodes that an opening determines: the frontier, the opened leaves, and what can be hashed
from them. -/
def replay (hash : Digest → Digest → Digest) (numLeaves : Nat) (proof : List Digest)
    (leaves : List (Nat × Digest)) : Exec MerkleError (List (Option Digest)) := do
  let isNodeOnPath ← markPathsToRoot numLeaves (leaves.map Prod.fst)
  let (nodes, proofIdx) ← (innerNodes numLeaves).foldlM (populateAt isNodeOnPath proof)
    (List.replicate (2 * numLeaves) none, 0)
  check (proofIdx = proof.length) (.proofLengthMismatch proofIdx proof.length)
  let nodes ← (leaves.map fun leaf => (leaf.1 + numLeaves, leaf.2)).foldlM
    (fun nodes write => setAt nodes write.1 (some write.2)) nodes
  bottomUp (joinChildren hash) numLeaves nodes

/-- Check an opening against a root. -/
def verifyProofWithHash (numLeaves : Nat) (root : Digest) (proof : List Digest)
    (leaves : List (Nat × Digest)) (hash : Digest → Digest → Digest) :
    Exec MerkleError Unit := do
  let computedNodes ← replay hash numLeaves proof leaves
  match ← getAt computedNodes 1 with
  | none => raise (.rootMismatch root default)
  | some computedRoot => check (root = computedRoot) (.rootMismatch root computedRoot)

/-- The hash of two children. -/
def hash2 (sha256 : Bytes → Digest) (l r : Digest) : Digest :=
  sha256 (l.data.toList ++ r.data.toList)

/-- The heap over `hash2`. -/
def MerkleHeap.new (sha256 : Bytes → Digest) (leaves : List Digest) : Exec ε MerkleHeap :=
  MerkleHeap.newWithHash leaves (hash2 sha256)

/-- Check an opening of a heap over `hash2`. -/
def verifyProof (sha256 : Bytes → Digest) (numLeaves : Nat) (root : Digest)
    (proof : List Digest) (leaves : List (Nat × Digest)) : Exec MerkleError Unit :=
  verifyProofWithHash numLeaves root proof leaves (hash2 sha256)

end Longfellow
