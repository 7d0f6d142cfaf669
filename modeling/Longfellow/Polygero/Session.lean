/-
**The two parties of Polygero** (`runtime/polygero/src/prover.rs`,
`runtime/polygero/src/prover_commitment.rs`, `runtime/polygero/src/verifier.rs`,
`runtime/polygero/src/transcript.rs`, `runtime/polygero/src/hash.rs`).

The prover validates and encodes a witness, commits to its columns, and later answers the challenges
with two responses and the opened columns. The verifier checks the shape of a proof, draws the same
challenges, restores the rows and checks the columns and the responses.

* `PolygeroVerifier.verify` — the verifier.

The digests are over an arbitrary `sha256`. Sizes that the parties compute are sizes of 64 bits.
-/

import Longfellow.Polygero.Constraints
import Longfellow.Polygero.Machine
import Longfellow.Polygero.Responses
import Longfellow.Random.Choose

namespace Longfellow.Polygero

open Lib PolygeroGeometry

variable {ε ρ σ E : Type}

/-! ### The public context -/

/-- A backend with the identity and the number of its points. -/
structure EvaluationDomain (E : Type) extends RangeInterpolatorFactory E where
  domainId : Bytes
  points : Nat

/-- A point of the table. -/
def EvaluationDomain.pointAt (domain : EvaluationDomain E) (index : Nat) : Exec ε E := do
  ensure (index < domain.points) "point index out of range"
  pure (domain.point index)

/-- The ranges that a backend interpolates between are in its table. -/
def EvaluationDomain.Tabled (domain : EvaluationDomain E) : Prop :=
  ∀ {source destination}, domain.canInterpolate source destination = true →
    source.stop ≤ domain.points ∧ destination.stop ≤ domain.points

/-- The hash of the public context. -/
def contextDigest (sha256 : Bytes → Digest) (geom : PolygeroGeometry) (domainId : Bytes)
    (products : List PolygeroProductConstraint) : Digest :=
  sha256 (ascii "polygero/root/context/fstar-last/v10" ++ leBytes 8 geom.k ++
    leBytes 8 domainId.length ++ domainId ++ geom.sizes.flatMap (leBytes 8) ++
    products.flatMap fun p => leBytes 8 p.x ++ leBytes 8 p.y ++ leBytes 8 p.z)

/-- The hash of two children. -/
def node (sha256 : Bytes → Digest) (context left right : Digest) : Digest :=
  sha256 (ascii "polygero/root/node/v1" ++ context.data.toList ++ left.data.toList ++
    right.data.toList)

/-- The hash of a column behind its index and its salt. -/
def leaf (sha256 : Bytes → Digest) (f : SerializableField E) (context : Digest) (index : Nat)
    (column : List E) (salt : MerkleNonce) : Digest :=
  sha256 (ascii "polygero/root/original-leaf/v1" ++ context.data.toList ++ leBytes 8 index ++
    salt.bytes.toList ++ column.flatMap f.toBytes)

def columnHashes (sha256 : Bytes → Digest) (f : SerializableField E) (context : Digest) :
    ColumnHashes E where
  leaf := leaf sha256 f context
  node := node sha256 context

/-- Parameters bound to a domain. -/
structure BoundParam extends PolygeroParam where
  domainId : Bytes
  context : Digest

/-- Validate the dimensions, the product indices and the capacity, and bind the public context. -/
def BoundParam.tryNew (sha256 : Bytes → Digest) (nw : Nat)
    (products : List PolygeroProductConstraint) (config : PolygeroConfig)
    (domain : EvaluationDomain E) : Exec String BoundParam := do
  let param ← PolygeroParam.tryNewMachine nw products config domain.toRangeInterpolatorFactory
  pure ⟨param, domain.domainId, contextDigest sha256 param.geom domain.domainId products⟩

structure PolygeroCommitment where
  root : Digest
  deriving DecidableEq, Repr

/-! ### The transcript -/

section Transcript

variable (ts : QueryTranscript σ E)

def receiveCommitment (param : BoundParam) (com : PolygeroCommitment) (t : σ) : σ :=
  let t := ts.writeBytes (ascii "polygero/root/commitment/v1") t
  let t := ts.writeBytes param.context.data.toList t
  ts.writeBytes com.root.data.toList t

/-- The weights of the constraints, and the samples of the polynomials of the batched rows. -/
structure Challenges (E : Type) where
  alpha : List E
  batchingSamples : List (List E)

/-- Sample `rows` polynomials by `count` values each. -/
def sampleRows (count : Nat) : Nat → σ → List (List E) × σ
  | 0, t => ([], t)
  | rows + 1, t =>
    let (samples, t) := ts.eltFieldSlice count t
    let (rest, t) := sampleRows count rows t
    (samples :: rest, t)

def challenges (param : BoundParam) (nconstraints : Nat) (statement : Digest) (t : σ) :
    Exec ε (Challenges E × σ) := do
  let t := ts.writeBytes (ascii "polygero/root/challenges/oracle-basis/v6") t
  let t := ts.writeBytes statement.data.toList t
  let copies ← mulSize 3 param.geom.nq
  let count ← addSize nconstraints copies
  let (alpha, t) := ts.eltFieldSlice count t
  let rows ← Machine.nrow param.geom
  let fstarRow ← checkedSub rows 1
  let samples ← addSize param.geom.s 1
  let (batchingSamples, t) := sampleRows ts samples fstarRow t
  pure (⟨alpha, batchingSamples⟩, t)

def queries (param : BoundParam) (h z : List E) (t : σ) : Exec ε (List Nat × σ) := do
  let t := ts.writeBytes (ascii "polygero/root/openings/v1") t
  let t := ts.writeEltFieldSlice h t
  let t := ts.writeEltFieldSlice z t
  ts.choose (List.replicate param.geom.t 0) param.geom.n param.geom.t t

end Transcript

/-! ### The prover -/

section Prover

variable [CommRing E] [DecidableEq E] (sha256 : Bytes → Digest) (f : SerializableField E)
  (sf : Subfield E)

/-- Whether a witness satisfies a product constraint. -/
def productHolds (witness : List E) (p : PolygeroProductConstraint) : Exec ε Bool := do
  let x ← getAt witness p.x
  let y ← getAt witness p.y
  let z ← getAt witness p.z
  pure (decide (x * y = z))

/-- Check the declared subfield portion, the domain and the products. -/
def validateWitness (param : BoundParam) (witness : List E) (subfieldBoundary : Nat)
    (domain : EvaluationDomain E) : Exec String Unit := do
  check (witness.length = param.geom.nw ∧ subfieldBoundary ≤ witness.length)
    "witness length mismatch"
  let declared ← slice witness 0 subfieldBoundary
  check (declared.all sf.contains = true) "witness outside declared subfield"
  if subfieldBoundary ≠ 0 then do
    let stop ← addSize param.geom.k param.geom.n
    let inSubfield ← (List.range stop).allM fun i => do
      let x ← domain.pointAt i
      pure (sf.contains x)
    check (inSubfield = true) "nonzero subfield_boundary requires a subfield interpolation domain"
  let satisfied ← param.products.allM (productHolds witness)
  check (satisfied = true) "unsatisfied product constraint"

/-- The committed rows, with the tree and the salts of their columns. -/
structure PolygeroProver (E : Type) where
  param : BoundParam
  w : List (List E)
  tree : MerkleHeap
  salts : List MerkleNonce

/-- Validate and encode the witness, commit to its columns, and bind the root. -/
def PolygeroProver.commit (ts : QueryTranscript σ E) (rng : RandomEngine ρ E)
    (subfieldBoundary : Nat) (witness : List E) (param : BoundParam) (t : σ)
    (domain : EvaluationDomain E) (r : ρ) :
    Exec String ((PolygeroProver E × PolygeroCommitment) × σ × ρ) := do
  check (param.domainId = domain.domainId) "interpolation domain mismatch"
  validateWitness sf param witness subfieldBoundary domain
  let (w, r) ← encodeRows param.toPolygeroParam domain.toRangeInterpolatorFactory rng witness
    subfieldBoundary r
  let ((tree, salts), r) ← commitColumns param.toPolygeroParam rng
    (columnHashes sha256 f param.context) w r
  let root ← tree.root
  let commitment : PolygeroCommitment := ⟨root⟩
  pure ((⟨param, w, tree, salts⟩, commitment), receiveCommitment ts param commitment t, r)

/-- Sample the challenges, then form the two responses in order. -/
def PolygeroProver.responses (prover : PolygeroProver E) (ts : QueryTranscript σ E) (b : List E)
    (a : List (PolygeroLinearTerm E)) (statement : Digest) (domain : EvaluationDomain E) (t : σ) :
    Exec String ((List E × List E) × σ) := do
  let param := prover.param.toPolygeroParam
  let (challenge, t) ← challenges ts prover.param b.length statement t
  let h ← primaryResponse param domain.toRangeInterpolatorFactory prover.w challenge.batchingSamples
  let rows ← batchConstraints param b a challenge.alpha
  let z ← arithmeticResponse param domain.toRangeInterpolatorFactory prover.w rows
  pure ((h, z), t)

/-- Gather the selected columns of each row that is transmitted, and open them. -/
def PolygeroProver.openColumns (prover : PolygeroProver E) (indices : List Nat) :
    Exec String (List E × MerkleProof) := do
  let transmitted ← Machine.transmittedRows prover.param.geom
  let _ ← mulSize indices.length transmitted
  let rows ← openRows prover.param.toPolygeroParam prover.w indices
  let nonce ← Blas.gather indices prover.salts
  let path ← prover.tree.generateProof indices
  pure (rows, ⟨nonce, path⟩)

/-- Prove the linear constraints `a w + b = 0` and the products fixed at commitment. -/
def PolygeroProver.prove (prover : PolygeroProver E) (ts : QueryTranscript σ E) (b : List E)
    (t : σ) (a : List (PolygeroLinearTerm E)) (statement : Digest) (domain : EvaluationDomain E) :
    Exec String (PolygeroProof E × σ) := do
  check (prover.param.domainId = domain.domainId) "interpolation domain mismatch"
  Polygero.validate prover.param.geom.nw b.length a
  let ((h, z), t) ← prover.responses ts b a statement domain t
  let (indices, t) ← queries ts prover.param h z t
  let (rows, opening) ← prover.openColumns indices
  pure (⟨h, z, rows, opening⟩, t)

end Prover

/-! ### The verifier -/

section Verifier

variable [CommRing E] [DecidableEq E] (sha256 : Bytes → Digest) (f : SerializableField E)

/-- The parameters, and the root that was received. -/
structure PolygeroVerifier where
  param : BoundParam
  commitment : Option PolygeroCommitment

def PolygeroVerifier.new (param : BoundParam) : PolygeroVerifier := ⟨param, none⟩

/-- Bind the root before drawing any challenges that depend on it. -/
def PolygeroVerifier.receive (verifier : PolygeroVerifier) (ts : QueryTranscript σ E)
    (commitment : PolygeroCommitment) (t : σ) : PolygeroVerifier × σ :=
  ({ verifier with commitment := some commitment },
    receiveCommitment ts verifier.param commitment t)

/-- Check commitment reception, domain identity, proof shape and constraint indices. -/
def PolygeroVerifier.validate (verifier : PolygeroVerifier) (b : List E)
    (commitment : PolygeroCommitment) (proof : PolygeroProof E) (a : List (PolygeroLinearTerm E))
    (domain : EvaluationDomain E) : Exec String Unit := do
  check (verifier.commitment = some commitment) "Polygero commitment was not received"
  check (verifier.param.domainId = domain.domainId) "interpolation domain mismatch"
  mapErr (fun e => raise e.message) (Machine.validateProof verifier.param.geom proof)
  Polygero.validate verifier.param.geom.nw b.length a

/-- Hash each queried column of the restored rows, and check the path against the root. -/
def authenticateColumns (param : BoundParam) (commitment : PolygeroCommitment)
    (proof : PolygeroProof E) (indices : List Nat) (opened : List E) : Exec String Unit := do
  let hashes := columnHashes sha256 f param.context
  let leaves ← (List.range indices.length).mapM fun query => do
    let j ← getAt indices query
    let column ← openedColumn param.toPolygeroParam opened query
    let salt ← getAt proof.opening.nonce query
    pure (j, hashes.leaf j column salt)
  mapErr (fun e => raise e.message)
    (verifyProofWithHash param.geom.n commitment.root proof.opening.path leaves hashes.node)

/-- Restore the rows, authenticate their columns, then check the two responses. -/
def PolygeroVerifier.verify (verifier : PolygeroVerifier) (ts : QueryTranscript σ E) (b : List E)
    (commitment : PolygeroCommitment) (proof : PolygeroProof E) (a : List (PolygeroLinearTerm E))
    (statement : Digest) (t : σ) (domain : EvaluationDomain E) : Exec String σ := do
  verifier.validate b commitment proof a domain
  let param := verifier.param.toPolygeroParam
  let (challenge, t) ← challenges ts verifier.param b.length statement t
  let (indices, t) ← queries ts verifier.param proof.h proof.z t
  let rows ← Machine.nrow param.geom
  let _ ← mulSize rows param.geom.t
  let opened ← materializeRows param proof.rows
  authenticateColumns sha256 f verifier.param commitment proof indices opened
  verifyPrimaryResponse param domain.toRangeInterpolatorFactory proof.h indices
    challenge.batchingSamples opened
  let rows ← batchConstraints param b a challenge.alpha
  let weights ← slice challenge.alpha 0 b.length
  let tau ← Blas.dot weights b
  verifyArithmetic param domain.toRangeInterpolatorFactory proof.z indices rows opened tau
  pure t

end Verifier

end Longfellow.Polygero
