/-
**Merkle commitments to columns** (`runtime/merkle/src/commitment.rs`).

A leaf is the hash of a fresh salt and the data of a column. The commitment keeps the heap and the
salts; an opening carries the salts of the opened leaves and the path of the heap.

* `commit_complete` — **an opening of distinct columns is accepted** by a verifier that hashes the
  same data for them.
-/

import Longfellow.Merkle.Binding
import Longfellow.Merkle.Completeness
import Longfellow.Random.Transcript

namespace Longfellow.Merkle

open Lib

variable {ε ρ E : Type}

/-- Thirty-two bytes as a salt. -/
def toNonce (bytes : Bytes) : Exec ε MerkleNonce :=
  if size : bytes.length = 32 then pure ⟨⟨bytes.toArray, by simpa using size⟩⟩
  else abort "called `Result::unwrap()` on an `Err` value"

/-- The heap of a commitment and the salts of its leaves. -/
structure MerkleCommitment where
  numLeaves : Nat
  mh : MerkleHeap
  nonce : List MerkleNonce
  deriving DecidableEq, Repr

/-- The hash of a salt and the data of a column. -/
def saltedLeaf (sha256 : Bytes → Digest) (nonce : MerkleNonce) (data : Bytes) : Digest :=
  sha256 (nonce.bytes.toList ++ data)

variable (sha256 : Bytes → Digest)

/-- Salt and hash leaf `i`. -/
def commitLeaf (rng : RandomEngine ρ E) (leafData : Nat → Exec ε Bytes)
    (state : (List MerkleNonce × List Digest) × ρ) (i : Nat) :
    Exec ε ((List MerkleNonce × List Digest) × ρ) := do
  let (bytes, r) := rng.bytes 32 state.2
  let n ← toNonce bytes
  let data ← leafData i
  pure ((state.1.1 ++ [n], state.1.2 ++ [saltedLeaf sha256 n data]), r)

/-- Commit to `numLeaves` columns. -/
def commit (rng : RandomEngine ρ E) (numLeaves : Nat) (leafData : Nat → Exec ε Bytes) (r : ρ) :
    Exec ε ((MerkleCommitment × Digest) × ρ) := do
  let ((nonce, leaves), r) ← (List.range numLeaves).foldlM (commitLeaf sha256 rng leafData)
    (([], []), r)
  let mh ← MerkleHeap.new sha256 leaves
  let root ← mh.root
  pure ((⟨numLeaves, mh, nonce⟩, root), r)

/-- Open some leaves. -/
def openLeaves (commitment : MerkleCommitment) (openedIndices : List Nat) :
    Exec ε MerkleProof := do
  let nonce ← openedIndices.mapM fun idx => do
    ensure (idx < commitment.numLeaves) "leaf index out of bounds"
    getAt commitment.nonce idx
  let path ← commitment.mh.generateProof openedIndices
  pure ⟨nonce, path⟩

/-- Check an opening against a root. `leafData r idx` is the data of query `r` at leaf `idx`. -/
def verify (numLeaves : Nat) (root : Digest) (openedIndices : List Nat) (proof : MerkleProof)
    (leafData : Nat → Nat → Exec MerkleError Bytes) : Exec MerkleError Unit := do
  let numQueries := openedIndices.length
  check (proof.nonce.length = numQueries) (.invalidNonceLength numQueries proof.nonce.length)
  let leaves ← (List.range numQueries).mapM fun r => do
    let nonce ← getAt proof.nonce r
    let idx ← getAt openedIndices r
    let data ← leafData r idx
    pure (idx, saltedLeaf sha256 nonce data)
  verifyProof sha256 numLeaves root proof.path leaves

/-! ### Completeness -/

/-- The engine returns as many bytes as it is asked for. -/
def FillsBytes (rng : RandomEngine ρ E) : Prop := ∀ len r, (rng.bytes len r).1.length = len

variable {sha256} {rng : RandomEngine ρ E}

theorem toNonce_returns {bytes : Bytes} (size : bytes.length = 32) :
    ∃ n, (toNonce bytes : Exec ε MerkleNonce) = .ok n :=
  ⟨_, by rw [toNonce, dif_pos size, pure_eq_ok]⟩

theorem commitLeaves_returns (sha256 : Bytes → Digest) (fills : FillsBytes rng)
    {leafData : Nat → Exec ε Bytes} {data : Nat → Bytes} {n : Nat}
    (returns : ∀ i < n, leafData i = .ok (data i)) (r : ρ) :
    ∃ nonce r', (List.range n).foldlM (commitLeaf sha256 rng leafData) (([], []), r) =
      .ok ((nonce, List.zipWith (saltedLeaf sha256) nonce ((List.range n).map data)), r') ∧
      nonce.length = n := by
  induction n with
  | zero => exact ⟨[], r, rfl, rfl⟩
  | succ n ih =>
    obtain ⟨nonce, r', ran, size⟩ := ih fun i below => returns i (by omega)
    obtain ⟨salt, isSalt⟩ := toNonce_returns (ε := ε) (fills 32 r')
    have step : ∀ digests, commitLeaf sha256 rng leafData ((nonce, digests), r') n =
        .ok ((nonce ++ [salt], digests ++ [saltedLeaf sha256 salt (data n)]),
          (rng.bytes 32 r').2) := by
      intro digests
      simp only [commitLeaf, isSalt, ok_bind, returns n (Nat.lt_succ_self n), pure_eq_ok]
    refine ⟨nonce ++ [salt], (rng.bytes 32 r').2, ?_, by simp [size]⟩
    rw [List.range_succ, List.foldlM_append, ran, ok_bind, List.foldlM_cons, step, ok_bind,
      List.foldlM_nil, List.map_append, List.zipWith_append (by simp [size])]
    rfl

variable {openedIndices : List Nat}

theorem openedNonces_returns {mc : MerkleCommitment} (size : mc.nonce.length = mc.numLeaves)
    (inRange : ∀ i ∈ openedIndices, i < mc.numLeaves) :
    ∃ nonce, openedIndices.mapM (fun idx => (do
        ensure (idx < mc.numLeaves) "leaf index out of bounds"
        getAt mc.nonce idx : Exec ε MerkleNonce)) = .ok nonce ∧
      List.Forall₂ (fun idx salt => mc.nonce[idx]? = some salt) openedIndices nonce := by
  induction openedIndices with
  | nil => exact ⟨[], rfl, .nil⟩
  | cons idx openedIndices ih =>
    obtain ⟨nonce, ran, found⟩ := ih fun i member => inRange i (List.mem_cons_of_mem _ member)
    have inside := inRange idx (List.mem_cons_self ..)
    obtain ⟨salt, here⟩ : ∃ salt, mc.nonce[idx]? = some salt :=
      ⟨_, List.getElem?_eq_getElem (by omega)⟩
    refine ⟨salt :: nonce, ?_, .cons here found⟩
    rw [List.mapM_cons, ensure_of inside, ok_bind, getAt_eq_ok.mpr here, ok_bind, ran]
    rfl

theorem verifiedLeaves_eq {salts nonce : List MerkleNonce} {data : Nat → Bytes}
    {checked : Nat → Nat → Exec MerkleError Bytes}
    (found : List.Forall₂ (fun idx salt => salts[idx]? = some salt) openedIndices nonce)
    (same : ∀ {k i}, openedIndices[k]? = some i → checked k i = .ok (data i)) :
    (List.range openedIndices.length).mapM (fun r => do
        let salt ← getAt nonce r
        let idx ← getAt openedIndices r
        let bytes ← checked r idx
        pure (idx, saltedLeaf sha256 salt bytes)) =
      .ok (openedLeaves (List.zipWith (saltedLeaf sha256) salts
        ((List.range salts.length).map data)) openedIndices) := by
  refine mapM_of_forall₂ (List.forall₂_iff_get.mpr ⟨by simp [openedLeaves], ?_⟩)
  intro k inside inside'
  rw [List.length_range] at inside
  have salted : k < nonce.length := found.length_eq ▸ inside
  have here := found.get inside salted
  simp only [List.get_eq_getElem] at here
  have bound := (List.getElem?_eq_some_iff.mp here).1
  simp only [List.get_eq_getElem, List.getElem_range, getAt_of_lt salted, ok_bind,
    getAt_of_lt inside, same (List.getElem?_eq_getElem inside), pure_eq_ok, openedLeaves,
    List.getElem_map, List.getD_eq_getElem?_getD, List.getElem?_zipWith, here,
    List.getElem?_map, List.getElem?_range bound, Option.map_some, Option.getD_some]

/-- **An opening of distinct columns is accepted.** -/
theorem commit_complete (fills : FillsBytes rng) {leafData : Nat → Exec ε Bytes}
    {data : Nat → Bytes} {n : Nat} (pos : 1 ≤ n)
    (returns : ∀ i < n, leafData i = .ok (data i)) (r : ρ) :
    ∃ mc root r', commit sha256 rng n leafData r = .ok ((mc, root), r') ∧
      ∀ {openedIndices : List Nat}, openedIndices ≠ [] → openedIndices.Nodup →
        (∀ i ∈ openedIndices, i < n) →
        ∃ proof, (openLeaves mc openedIndices : Exec ε MerkleProof) = .ok proof ∧
          proof.nonce.length = openedIndices.length ∧
          ∀ {checked : Nat → Nat → Exec MerkleError Bytes},
            (∀ {k i}, openedIndices[k]? = some i → checked k i = .ok (data i)) →
            verify sha256 n root openedIndices proof checked = .ok () := by
  obtain ⟨nonce, r', ran, size⟩ := commitLeaves_returns sha256 fills returns r
  subst size
  set leaves := List.zipWith (saltedLeaf sha256) nonce ((List.range nonce.length).map data)
  have count : leaves.length = nonce.length := by simp [leaves]
  obtain ⟨mh, isNew, built⟩ : ∃ heap, (MerkleHeap.new sha256 leaves : Exec ε MerkleHeap) = .ok heap ∧
      Built (hash2 sha256) leaves heap := newWithHash_built (by omega)
  obtain ⟨root, isRoot⟩ : ∃ root, (mh.root : Exec ε Digest) = .ok root :=
    ⟨_, getAt_of_lt (by rw [built.length]; omega)⟩
  refine ⟨⟨nonce.length, mh, nonce⟩, root, r', ?_, fun {openedIndices} some distinct inRange => ?_⟩
  · simp only [commit, ran, ok_bind, isNew, isRoot, pure_eq_ok]
  · have inside : ∀ i ∈ openedIndices, i < leaves.length := by
      rw [count]
      exact inRange
    obtain ⟨root', path, _, isRoot', generated, accepted, _⟩ :=
      built.opens (ε := ε) some inside distinct
    obtain rfl : root = root' := Except.ok.inj (isRoot.symm.trans isRoot')
    obtain ⟨salts, opened, found⟩ := openedNonces_returns (ε := ε)
      (show (⟨nonce.length, mh, nonce⟩ : MerkleCommitment).nonce.length = nonce.length from rfl)
      inRange
    refine ⟨⟨salts, path⟩, ?_, found.length_eq.symm, fun same => ?_⟩
    · rw [openLeaves, opened, ok_bind, generated, ok_bind, pure_eq_ok]
    · rw [verify, check_of found.length_eq.symm, ok_bind, verifiedLeaves_eq found same, ok_bind]
      rw [count] at accepted
      exact accepted

/-- An engine that draws zeros. -/
def zeroEngine : RandomEngine Unit Nat :=
  ⟨fun len r => (List.replicate len 0, r), fun r => (0, r), fun r => (0, r)⟩

/-- A hash that keeps the last byte. -/
def lastByte (bytes : Bytes) : Digest := ⟨Vector.replicate 32 (bytes.getLastD 0)⟩

theorem commit_complete_two : ∃ mc root r' proof,
    commit lastByte zeroEngine 2 (fun i => (.ok [UInt8.ofNat i] : Exec String Bytes)) () =
      .ok ((mc, root), r') ∧ (openLeaves mc [1] : Exec String MerkleProof) = .ok proof ∧
      verify lastByte 2 root [1] proof (fun _ i => .ok [UInt8.ofNat i]) = .ok () := by
  have fills : FillsBytes zeroEngine := fun _ _ => List.length_replicate
  obtain ⟨mc, root, r', ran, opens⟩ := commit_complete (n := 2) fills (by decide) (fun _ _ => rfl) ()
  obtain ⟨proof, opened, _, accepts⟩ := opens (show [1] ≠ [] by decide) (by decide) (by decide)
  exact ⟨mc, root, r', proof, ran, opened, accepts fun _ => rfl⟩

/-! ### Binding -/

/-- The leaves of an opening, as the verifier hashes them. -/
def hashedLeaves (sha256 : Bytes → Digest) (openedIndices : List Nat) (proof : MerkleProof)
    (leafData : Nat → Nat → Exec MerkleError Bytes) : Exec MerkleError (List (Nat × Digest)) :=
  (List.range openedIndices.length).mapM fun r => do
    let nonce ← getAt proof.nonce r
    let idx ← getAt openedIndices r
    let data ← leafData r idx
    pure (idx, saltedLeaf sha256 nonce data)

variable {leafData : Nat → Nat → Exec MerkleError Bytes}

theorem hashedLeaves_of_verify {numLeaves : Nat} {root : Digest} {proof : MerkleProof}
    (accepts : verify sha256 numLeaves root openedIndices proof leafData = .ok ()) :
    ∃ leaves, hashedLeaves sha256 openedIndices proof leafData = .ok leaves ∧
      verifyProof sha256 numLeaves root proof.path leaves = .ok () := by
  obtain ⟨_, _, rest⟩ := bind_eq_ok.mp accepts
  exact bind_eq_ok.mp rest

theorem mem_hashedLeaves {proof : MerkleProof} {leaves : List (Nat × Digest)}
    (hashed : hashedLeaves sha256 openedIndices proof leafData = .ok leaves) {k i : Nat}
    (query : openedIndices[k]? = some i) {bytes : Bytes} (data : leafData k i = .ok bytes) :
    ∃ salt, proof.nonce[k]? = some salt ∧ (i, saltedLeaf sha256 salt bytes) ∈ leaves := by
  obtain ⟨inside, _⟩ := List.getElem?_eq_some_iff.mp query
  have related := mapM_eq_ok hashed
  have inside' : k < leaves.length := by
    rwa [← related.length_eq, List.length_range]
  have here := related.get (by rwa [List.length_range]) inside'
  simp only [List.get_eq_getElem, List.getElem_range, bind_eq_ok, getAt_eq_ok, query,
    Option.some.injEq, exists_eq_left', data, pure_eq_ok, Except.ok.injEq] at here
  obtain ⟨salt, found, same⟩ := here
  exact ⟨salt, found, same ▸ List.getElem_mem inside'⟩

/-- **A root binds data.** When two accepted openings give one column different data, its two salted
leaves collide, or the reduction finds two inner nodes that do. -/
theorem verify_binding {numLeaves : Nat} {root : Digest} {indices₁ indices₂ : List Nat}
    {proof₁ proof₂ : MerkleProof} {data₁ data₂ : Nat → Nat → Exec MerkleError Bytes}
    (accepts₁ : verify sha256 numLeaves root indices₁ proof₁ data₁ = .ok ())
    (accepts₂ : verify sha256 numLeaves root indices₂ proof₂ data₂ = .ok ()) {k₁ k₂ i : Nat}
    (query₁ : indices₁[k₁]? = some i) (query₂ : indices₂[k₂]? = some i) {bytes₁ bytes₂ : Bytes}
    (is₁ : data₁ k₁ i = .ok bytes₁) (is₂ : data₂ k₂ i = .ok bytes₂) (differ : bytes₁ ≠ bytes₂) :
    (∃ salt₁ salt₂, proof₁.nonce[k₁]? = some salt₁ ∧ proof₂.nonce[k₂]? = some salt₂ ∧
      salt₁.bytes.toList ++ bytes₁ ≠ salt₂.bytes.toList ++ bytes₂ ∧
      sha256 (salt₁.bytes.toList ++ bytes₁) = sha256 (salt₂.bytes.toList ++ bytes₂)) ∨
    ∃ leaves₁ leaves₂ a b, hashedLeaves sha256 indices₁ proof₁ data₁ = .ok leaves₁ ∧
      hashedLeaves sha256 indices₂ proof₂ data₂ = .ok leaves₂ ∧
      extractCollision (hash2 sha256) numLeaves ⟨leaves₁, proof₁.path⟩ ⟨leaves₂, proof₂.path⟩ =
        some (a, b) ∧
      a ≠ b ∧ hash2 sha256 a.1 a.2 = hash2 sha256 b.1 b.2 := by
  obtain ⟨leaves₁, hashed₁, root₁⟩ := hashedLeaves_of_verify accepts₁
  obtain ⟨leaves₂, hashed₂, root₂⟩ := hashedLeaves_of_verify accepts₂
  obtain ⟨salt₁, found₁, opened₁⟩ := mem_hashedLeaves hashed₁ query₁ is₁
  obtain ⟨salt₂, found₂, opened₂⟩ := mem_hashedLeaves hashed₂ query₂ is₂
  by_cases same : saltedLeaf sha256 salt₁ bytes₁ = saltedLeaf sha256 salt₂ bytes₂
  · refine .inl ⟨salt₁, salt₂, found₁, found₂, fun joined => differ ?_, same⟩
    exact (List.append_inj joined (by simp)).2
  · let o₁ : Opening := ⟨leaves₁, proof₁.path⟩
    let o₂ : Opening := ⟨leaves₂, proof₂.path⟩
    obtain ⟨a, b, extracted, apart, collide⟩ : ∃ a b,
        extractCollision (hash2 sha256) numLeaves o₁ o₂ = some (a, b) ∧ a ≠ b ∧
        hash2 sha256 a.1 a.2 = hash2 sha256 b.1 b.2 :=
      verifyProofWithHash_collision root₁ root₂ opened₁ opened₂ same
    exact .inr ⟨leaves₁, leaves₂, a, b, hashed₁, hashed₂, extracted, apart, collide⟩

theorem verify_binding_two :
    let proof : MerkleProof := ⟨[⟨Vector.replicate 32 0⟩], [default]⟩
    ∃ leaves₁ leaves₂ a b, hashedLeaves lastByte [0] proof (fun _ _ => .ok [0]) = .ok leaves₁ ∧
      hashedLeaves lastByte [0] proof (fun _ _ => .ok [1]) = .ok leaves₂ ∧
      extractCollision (hash2 lastByte) 2 ⟨leaves₁, proof.path⟩ ⟨leaves₂, proof.path⟩ =
        some (a, b) ∧ a ≠ b ∧ hash2 lastByte a.1 a.2 = hash2 lastByte b.1 b.2 := by
  intro proof
  have zero : verify lastByte 2 default [0] proof (fun _ _ => .ok [0]) = .ok () := rfl
  have one : verify lastByte 2 default [0] proof (fun _ _ => .ok [1]) = .ok () := rfl
  have query : [0][0]? = some 0 := rfl
  refine (verify_binding zero one query query rfl rfl (by decide)).resolve_left ?_
  rintro ⟨salt₁, salt₂, -, -, -, same⟩
  simp [lastByte] at same

end Longfellow.Merkle
