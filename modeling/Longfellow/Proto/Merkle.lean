/-
**Merkle messages** (`runtime/proto/src/merkle.rs`): digests, nonces and openings.

* `reads_nonces`, `reads_digests` and their canonical counterparts — the two raw lists of an
  opening.
-/

import Longfellow.Proto.Util

namespace Longfellow

open Lib

/-- A 32-byte hash digest. -/
structure Digest where
  data : Vector UInt8 32
  deriving DecidableEq, Repr

/-- The all-zero digest. -/
instance : Inhabited Digest := ⟨⟨Vector.replicate 32 0⟩⟩

/-- A 32-byte salt of one leaf. -/
structure MerkleNonce where
  bytes : Vector UInt8 32
  deriving DecidableEq, Repr

/-- An opening of a subset of the leaves: their nonces, and the sibling digests along the paths
from the opened leaves to the root. -/
structure MerkleProof where
  nonce : List MerkleNonce
  path : List Digest
  deriving DecidableEq, Repr

/-- The raw bytes of each nonce, without a length. -/
def writeNonces (nonce : List MerkleNonce) : Bytes := nonce.flatMap fun n => n.bytes.toList

/-- Read one nonce. -/
def readNonce : Reader IoError MerkleNonce := do
  let bytes ← readBytes32
  pure ⟨bytes⟩

/-- Read `numQueries` nonces. -/
def readNonces (numQueries : Nat) : Reader IoError (List MerkleNonce) :=
  readMany readNonce numQueries

/-- The raw bytes of each digest. -/
def writeDigests (path : List Digest) : Bytes := path.flatMap fun d => d.data.toList

/-- The path behind its length, truncated to four bytes. -/
def writePath (path : List Digest) : Bytes := leBytes 4 path.length ++ writeDigests path

/-- Read one digest. -/
def readDigest : Reader IoError Digest := do
  let data ← readBytes32
  pure ⟨data⟩

/-- The longest path of an opening of `numQueries` leaves, or nothing when it does not fit. -/
def maxPathSize (numQueries mcPathlen : Nat) : Option Nat := checkedMul numQueries mcPathlen

/-- Read the path of an opening of `numQueries` leaves. -/
def readPath (numQueries mcPathlen : Nat) : Reader IoError (List Digest) := do
  let pathLen ← readSize4bytes
  match maxPathSize numQueries mcPathlen with
  | none => liftM (raise (invalidData "Overflow computing max Merkle path size") :
      Exec IoError (List Digest))
  | some maxSz => do
    liftM (check (pathLen ≤ maxSz)
      (invalidData s!"Invalid Merkle path size: {pathLen} (max_sz={maxSz})"))
    readMany readDigest pathLen

/-! ### The raw lists -/

theorem reads_nonces (nonce : List MerkleNonce) :
    Reads (readNonces nonce.length) (writeNonces nonce) nonce :=
  reads_many fun n _ => (reads_bytes32 n.bytes).andReturn MerkleNonce.mk

theorem canonical_nonces (count : Nat) :
    Canonical (readNonces count) (fun nonce => nonce.length = count) writeNonces := by
  have each : Canonical readNonce (fun _ => True) fun n => n.bytes.toList := by
    intro bytes n rest ran
    obtain ⟨data, middle, read, ran⟩ := reader_bind_eq_ok.mp ran
    obtain ⟨rfl, rfl⟩ := reader_pure_eq_ok.mp ran
    exact ⟨trivial, (canonical_bytes32 read).2⟩
  intro bytes nonce rest ran
  obtain ⟨⟨size, _⟩, whole⟩ := canonical_many each count ran
  exact ⟨size, whole⟩

theorem reads_digests (path : List Digest) :
    Reads (readMany readDigest path.length) (writeDigests path) path :=
  reads_many fun d _ => (reads_bytes32 d.data).andReturn Digest.mk

theorem canonical_digests (count : Nat) :
    Canonical (readMany readDigest count) (fun path => path.length = count) writeDigests := by
  have each : Canonical readDigest (fun _ => True) fun d => d.data.toList := by
    intro bytes d rest ran
    obtain ⟨data, middle, read, ran⟩ := reader_bind_eq_ok.mp ran
    obtain ⟨rfl, rfl⟩ := reader_pure_eq_ok.mp ran
    exact ⟨trivial, (canonical_bytes32 read).2⟩
  intro bytes path rest ran
  obtain ⟨⟨size, _⟩, whole⟩ := canonical_many each count ran
  exact ⟨size, whole⟩

theorem length_writeNonces (nonce : List MerkleNonce) :
    (writeNonces nonce).length = 32 * nonce.length := by
  simp [writeNonces, List.length_flatMap, Nat.mul_comm]

theorem length_writeDigests (path : List Digest) :
    (writeDigests path).length = 32 * path.length := by
  simp [writeDigests, List.length_flatMap, Nat.mul_comm]

end Longfellow
