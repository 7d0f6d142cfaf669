/-
**Polygero runs on an accepted geometry.**

The validation of a geometry and the checks at the construction of the parameters are enough: nothing
that the parties or the codec compute from them overflows, and no index is out of range, whatever
the witness, the constraints, the bytes read and the proof received.

* `verify_safe` — **the verifier, on any proof**: rows that are received are opened rows of some
  matrix of the right shape (`exists_committed`), so the lemmas about honest rows apply to them.
-/

import Longfellow.Polygero.Session

set_option linter.unusedSectionVars false

namespace Longfellow.Polygero

open Lib PolygeroGeometry PolygeroParam

variable {ε ρ σ E : Type} {domain : EvaluationDomain E} {param : BoundParam} {b : List E}
  {a : List (PolygeroLinearTerm E)}

/-! ### The codec -/

section Codec

variable {f : SerializableField E} {sf : Subfield E} {geom : PolygeroGeometry}

theorem safe_parsed (outcome : Except String E) (describe : String → IoError) :
    Safe (parsed outcome describe) fun _ => True := by
  cases outcome with
  | error message => exact safe_raise _ _
  | ok value => exact safe_pure trivial

theorem safeReader_checkLeft (test : Bytes → Bool) (error : IoError) :
    SafeReader (checkLeft test error) fun _ => True := by
  intro bytes
  show Safe (if _ then _ else _) _
  split
  · exact safe_pure trivial
  · exact safe_raise _ _

theorem safeReader_magic (magic : Bytes) (mismatch : IoError) :
    SafeReader (readMagic magic mismatch) fun _ => True := by
  intro bytes
  show Safe (if _ then _ else _) _
  split
  · exact safe_pure trivial
  · exact safe_raise _ _

theorem safeReader_size4bytes : SafeReader readSize4bytes fun _ => True :=
  (safeReader_takeBytes 4 _).bind fun _ _ => safeReader_pure trivial

theorem safeReader_field : SafeReader (readField f) fun _ => True :=
  (safeReader_takeBytes _ _).bind fun _ _ => (safeReader_lift (safe_parsed _ _)).bind fun _ _ =>
    (safeReader_lift (safe_check _ _)).bind fun _ _ => safeReader_pure trivial

theorem safeReader_subfieldElt : SafeReader (readSubfieldElt sf) fun _ => True :=
  (safeReader_takeBytes _ _).bind fun _ _ => (safeReader_lift (safe_parsed _ _)).bind fun _ _ =>
    (safeReader_lift (safe_check _ _)).bind fun _ _ => safeReader_pure trivial

theorem safeReader_rowElt (subfield : Bool) : SafeReader (readRowElt f sf subfield) fun _ => True := by
  have value : SafeReader (if subfield then readSubfieldElt sf else readField f) fun _ => True := by
    cases subfield with
    | false => exact safeReader_field
    | true => exact safeReader_subfieldElt
  exact value.bind fun _ _ => (safeReader_lift (safe_check _ _)).bind fun _ _ =>
    safeReader_pure trivial

theorem safeReader_rows (count : Nat) :
    SafeReader (readRows f sf count) fun rows => rows.length = count := by
  refine safeReader_runs safeReader_size4bytes (fun first remaining n => ?_) (fun flag n => ?_)
    (by simp)
  · exact (safe_check _ _).remember.mono fun _ ran => admitRowRun_eq_ok.mp ran.1
  · exact (safeReader_checkLeft _ _).bind fun _ _ =>
      (safeReader_many (safeReader_rowElt flag) n).mono fun _ size => size.1

theorem safeReader_bytes32 : SafeReader readBytes32 fun _ => True := safeReader_takeVector _ _

theorem safeReader_opening : SafeReader (readOpening geom) fun _ => True := by
  have nonce : SafeReader readNonce fun _ => True :=
    safeReader_bytes32.bind fun _ _ => safeReader_pure trivial
  have digest : SafeReader readDigest fun _ => True :=
    safeReader_bytes32.bind fun _ _ => safeReader_pure trivial
  refine (safeReader_many nonce _).bind fun _ _ => safeReader_size4bytes.bind fun _ _ => ?_
  refine (safeReader_checkLeft _ _).bind fun _ _ => (safeReader_many digest _).bind fun _ _ => ?_
  exact safeReader_pure trivial

/-- **The reader does not panic**, on any bytes. -/
theorem read_safe (f : SerializableField E) (sf : Subfield E) (geom : PolygeroGeometry) :
    SafeReader (Machine.read geom f sf) fun _ => True := by
  rw [Machine.read_eq]
  refine (safeReader_lift (Machine.validate_safe geom)).bind fun _ _ => ?_
  refine (safeReader_lift (safe_check _ _)).bind fun _ _ => (safeReader_magic _ _).bind fun _ _ => ?_
  refine (safeReader_forM fun size _ => ?_).bind fun _ _ => ?_
  · exact safeReader_size4bytes.bind fun _ _ =>
      (safeReader_lift (safe_check _ _)).mono fun _ _ => trivial
  refine (safeReader_lift (?needed : Safe _ fun _ => True)).bind fun _ _ =>
    (safeReader_checkLeft _ _).bind fun _ _ => ?_
  case needed =>
    split
    · exact safe_pure trivial
    · exact safe_raise _ _
  refine (safeReader_many safeReader_field _).bind fun _ _ => ?_
  refine (safeReader_many safeReader_field _).bind fun _ _ => ?_
  exact (safeReader_rows _).bind fun _ _ => safeReader_opening.bind fun _ _ =>
    safeReader_pure trivial

theorem validateProof_safe (geom : PolygeroGeometry) (p : PolygeroProof E) :
    Safe (Machine.validateProof geom p) fun _ => p.Shaped geom := by
  rw [Machine.validateProof_eq]
  have safe : Safe (p.validate geom) fun _ => True :=
    (Machine.validate_safe geom).bind fun _ _ => (safe_check _ _).mono fun _ _ => trivial
  exact safe.remember.mono fun _ ran => PolygeroProof.validate_eq_ok.mp ran.1

/-- **The writer does not panic**, on any proof. -/
theorem write_safe (f : SerializableField E) (sf : Subfield E) (geom : PolygeroGeometry)
    (p : PolygeroProof E) : Safe (Machine.write geom f sf p) fun _ => True := by
  refine (validateProof_safe geom p).bind fun _ shaped => (safe_check _ _).bind fun _ _ => ?_
  have sizes : (geom.sizes.mapM writeSize4bytes : Exec IoError (List Bytes)) =
      .ok (geom.sizes.map (leBytes 4)) :=
    mapM_eq_ok_map fun size member => writeSize4bytes_eq_ok.mpr
      ⟨(shaped.valid.sizes size member).trans_lt (by decide), rfl⟩
  have short : RunsBelow sf (2 ^ 32) p.rows := fun flag run inside _ =>
    (inside.length_le.trans shaped.rows.le).trans_lt shaped.valid.opened_lt
  obtain ⟨runs, written⟩ := writeEltRuns_returns (f := f) short
  rw [sizes, ok_bind, written, ok_bind]
  exact safe_pure trivial

end Codec

/-! ### The challenges and the queries -/

/-- What the parties share: parameters that were constructed with the domain. -/
structure Setting (param : BoundParam) (domain : EvaluationDomain E) : Prop where
  admitted : param.toPolygeroParam.Admitted
  capacity : Capacity param.geom domain.toRangeInterpolatorFactory
  sized : Sized domain.toRangeInterpolatorFactory
  tabled : domain.Tabled

theorem setting_of_tryNew {sha256 : Bytes → Digest} {nw : Nat}
    {products : List PolygeroProductConstraint} {config : PolygeroConfig}
    (made : BoundParam.tryNew sha256 nw products config domain = .ok param)
    (sized : Sized domain.toRangeInterpolatorFactory) (tabled : domain.Tabled) :
    Setting param domain := by
  obtain ⟨plain, constructed, made⟩ := bind_eq_ok.mp made
  obtain rfl := Except.ok.inj made
  rw [tryNewMachine_eq] at constructed
  exact ⟨PolygeroParam.tryNew_admitted constructed, tryNew_capacity constructed, sized, tabled⟩

section Transcript

variable (ts : QueryTranscript σ E)

theorem length_sampleRows (count rows : Nat) (t : σ) :
    (sampleRows ts count rows t).1.length = rows ∧
      ∀ row ∈ (sampleRows ts count rows t).1, row.length = count := by
  induction rows generalizing t with
  | zero => exact ⟨rfl, by simp [sampleRows]⟩
  | succ rows ih =>
    obtain ⟨size, each⟩ := ih (ts.eltFieldSlice count t).2
    refine ⟨by rw [sampleRows, List.length_cons, size], ?_⟩
    exact List.forall_mem_cons.mpr ⟨ts.length_eltFieldSlice count t, each⟩

theorem challenges_returns (valid : param.geom.Valid) {nconstraints : Nat}
    (few : nconstraints < 2 ^ 63) (statement : Digest) (t : σ) : ∃ challenge t',
    (challenges ts param nconstraints statement t : Exec ε _) = .ok (challenge, t') ∧
      challenge.alpha.length = nconstraints + 3 * param.geom.nq ∧
      challenge.batchingSamples.length = param.fstarRow ∧
      ∀ row ∈ challenge.batchingSamples, row.length = param.geom.s + 1 := by
  have bounded := Machine.bounded_of_valid valid
  have small := bounded.each
  have last : 1 ≤ param.geom.nrow := by
    rw [PolygeroGeometry.nrow]
    omega
  have copies : (mulSize 3 param.geom.nq : Exec ε Nat) = .ok (3 * param.geom.nq) :=
    mulSize_of_lt (by omega)
  have count : (addSize nconstraints (3 * param.geom.nq) : Exec ε Nat) =
    .ok (nconstraints + 3 * param.geom.nq) := addSize_of_lt (by omega)
  have samples : (addSize param.geom.s 1 : Exec ε Nat) = .ok (param.geom.s + 1) :=
    addSize_of_lt (by omega)
  simp only [challenges, copies, count, samples, Machine.nrow_eq bounded, checkedSub_of_le last,
    ok_bind, pure_eq_ok]
  obtain ⟨rows, each⟩ := length_sampleRows ts (param.geom.s + 1) (param.geom.nrow - 1) _
  exact ⟨_, _, rfl, ts.length_eltFieldSlice _ _, rows, each⟩

theorem queries_returns (valid : param.geom.Valid) (h z : List E) (t : σ) : ∃ indices t',
    (queries ts param h z t : Exec ε _) = .ok (indices, t') ∧ indices.length = param.geom.t ∧
      indices.Nodup ∧ ∀ j ∈ indices, j < param.geom.n := by
  have below := valid.queries_lt
  have primary := valid.primary
  exact choose_returns ts (show param.geom.t ≤ param.geom.n by omega) List.length_replicate _

end Transcript

/-! ### The prover -/

section Parties

variable [CommRing E] [DecidableEq E]

section Prover

variable (setting : Setting param domain)
include setting

theorem validateWitness_safe (sf : Subfield E) (witness : List E) (subfieldBoundary : Nat) :
    Safe (validateWitness sf param witness subfieldBoundary domain) fun _ =>
      witness.length = param.geom.nw := by
  have small := (Machine.bounded_of_valid setting.admitted.valid).each
  have stop : (addSize param.geom.k param.geom.n : Exec String Nat) =
    .ok (param.geom.k + param.geom.n) := addSize_of_lt (by omega)
  rw [validateWitness]
  refine (safe_check _ _).bind fun _ ⟨size, within⟩ => ?_
  rw [slice_of_le (Nat.zero_le _) within, ok_bind]
  refine (safe_check _ _).bind fun _ _ => ?_
  -- Every product reads three entries of the witness.
  have products : Safe (do
      let satisfied ← param.products.allM (productHolds witness)
      check (satisfied = true) "unsatisfied product constraint") fun _ =>
        witness.length = param.geom.nw := by
    refine (safe_allM fun p member => ?_).bind fun _ _ => (safe_check _ _).mono fun _ _ => size
    obtain ⟨x, y, z⟩ := setting.admitted.inside p member
    rw [← size] at x y z
    rw [productHolds, getAt_of_lt x, ok_bind, getAt_of_lt y, ok_bind, getAt_of_lt z, ok_bind]
    exact safe_pure trivial
  by_cases declared : subfieldBoundary = 0
  · rw [if_neg (not_not.mpr declared)]
    exact products
  · rw [if_pos declared, stop, ok_bind]
    refine (safe_allM fun i member => ?_).bind fun _ _ => (safe_check _ _).bind fun _ _ => products
    have table := (setting.tabled setting.capacity.response).2
    have inside : i < domain.points := (List.mem_range.mp member).trans_le table
    rw [EvaluationDomain.pointAt, ensure_of inside, ok_bind, pure_eq_ok, ok_bind]
    exact safe_pure trivial

theorem batchConstraints_returns
    (inside : ∀ term ∈ a, term.c < b.length ∧ term.w < param.geom.nw) {alpha : List E}
    (long : alpha.length = b.length + 3 * param.geom.nq) : ∃ rows,
    (batchConstraints param.toPolygeroParam b a alpha : Exec ε _) = .ok rows ∧
      rows.length = param.geom.dataRows ∧ ∀ row ∈ rows, row.length = param.geom.k := by
  have laidOut : LaidOut param.toPolygeroParam (List.replicate param.geom.nw (0 : E)) []
      fun _ _ => 0 := by
    refine ⟨fun i below => ?_, fun _ _ => rfl, fun _ _ => rfl, fun _ _ => rfl⟩
    rw [List.getD_replicate]
    exact below
  obtain ⟨rows, ran, count, each, _⟩ := batchConstraints_identity (ε := ε) setting.admitted
    List.length_replicate laidOut inside long.ge
  exact ⟨rows, ran, count, each⟩

/-- What the prover keeps of its commitment. -/
structure Ready (prover : PolygeroProver E) (domain : EvaluationDomain E) : Prop where
  setting : Setting prover.param domain
  committed : Committed prover.param.toPolygeroParam prover.w
  salts : prover.salts.length = prover.param.geom.n
  leaves : prover.tree.numLeaves = prover.param.geom.n
  layers : prover.tree.layers.length = 2 * prover.param.geom.n

/-- **The commitment does not panic**, on any witness. -/
theorem commit_safe (sha256 : Bytes → Digest) (f : SerializableField E) (sf : Subfield E)
    (ts : QueryTranscript σ E) {rng : RandomEngine ρ E} (fills : Merkle.FillsBytes rng)
    (subfieldBoundary : Nat) (witness : List E) (t : σ) (r : ρ) :
    Safe (PolygeroProver.commit sha256 f sf ts rng subfieldBoundary witness param t domain r)
      fun result => Ready result.1.1 domain := by
  refine (safe_check _ _).bind fun _ _ => ?_
  refine (validateWitness_safe setting sf witness subfieldBoundary).bind fun _ size => ?_
  obtain ⟨w, r', encoded, committed⟩ := encodeRows_returns (ε := String) rng setting.sized
    setting.capacity setting.admitted size subfieldBoundary r
  obtain ⟨tree, salts, r'', hashed, count, built⟩ := commitColumns_returns (ε := String)
    (columnHashes sha256 f param.context) fills setting.admitted.valid committed r'
  have positive : 1 < param.geom.n := by
    have := setting.admitted.valid.queries
    have := setting.admitted.valid.queries_lt
    have := setting.admitted.valid.arithmetic
    omega
  have columns : (leaves (columnHashes sha256 f param.context) param.geom.n w salts).length =
      param.geom.n := by simp [leaves]
  have layers : tree.layers.length = 2 * param.geom.n := by rw [built.length, columns]
  have root : 1 < tree.layers.length := by omega
  simp only [encoded, hashed, ok_bind, MerkleHeap.root, getAt_of_lt root]
  exact safe_pure ⟨setting, committed, count, built.numLeaves.trans columns, layers⟩

end Prover

section Prove

variable {prover : PolygeroProver E} (ready : Ready prover domain)
include ready

theorem responses_returns (ts : QueryTranscript σ E) (few : b.length < 2 ^ 63)
    (inside : ∀ term ∈ a, term.c < b.length ∧ term.w < prover.param.geom.nw) (statement : Digest)
    (t : σ) : ∃ responses, prover.responses ts b a statement domain t = .ok responses := by
  have setting := ready.setting
  have valid := setting.admitted.valid
  obtain ⟨challenge, t', drawn, alpha, rows, each⟩ := challenges_returns (ε := String) ts valid few
    statement t
  have primary := primaryResponse_eq (ε := String) setting.sized setting.capacity ready.committed
    rows each valid
  obtain ⟨batched, ran, count, long⟩ := batchConstraints_returns (ε := String) setting inside alpha
  obtain ⟨vs, isV, sizeV⟩ := vanishing_returns setting.sized setting.capacity
  obtain ⟨ss, isS, sizeS⟩ := selector_returns setting.sized setting.capacity valid
  have arithmetic := arithmeticResponse_eq (ε := String) setting.sized setting.capacity
    ready.committed count long isV isS sizeV sizeS valid
  simp only [PolygeroProver.responses, drawn, primary, ran, arithmetic, ok_bind, pure_eq_ok]
  exact ⟨_, rfl⟩

theorem openColumns_returns {indices : List Nat} (count : indices.length = prover.param.geom.t)
    (distinct : indices.Nodup) (inside : ∀ j ∈ indices, j < prover.param.geom.n) :
    ∃ opened, prover.openColumns indices = .ok opened := by
  have valid := ready.setting.admitted.valid
  have bounded := Machine.bounded_of_valid valid
  have small := valid.opened_lt
  have some : indices ≠ [] := List.ne_nil_of_length_pos (count ▸ valid.queries)
  obtain ⟨mask, masked, _⟩ := markPathsToRoot_returns some
    (show ∀ j ∈ indices, j < prover.tree.numLeaves from ready.leaves ▸ inside) distinct
  obtain ⟨path, generated, _⟩ := generateProof_eq (ε := String) masked
    (by rw [ready.layers, ready.leaves])
  have opened := openRows_eq (ε := String) ready.committed inside
  have gathered : (Blas.gather indices prover.salts : Exec String _) = .ok _ :=
    Blas.gather_map (fun j => prover.salts.getD j ⟨Vector.replicate 32 0⟩) fun j member => by
      have bound : j < prover.salts.length := by
        rw [ready.salts]
        exact inside j member
      rw [List.getElem?_eq_getElem bound, List.getD_eq_getElem _ _ bound]
  have capacity : (mulSize indices.length prover.param.geom.transmittedRows : Exec String Nat) =
      .ok _ := mulSize_of_lt (by rw [count]; omega)
  simp only [PolygeroProver.openColumns, Machine.transmittedRows_eq bounded, capacity, opened,
    gathered, generated, ok_bind, pure_eq_ok]
  exact ⟨_, rfl⟩

/-- **The prover does not panic** on what it committed to, whatever the constraints. -/
theorem prove_safe (ts : QueryTranscript σ E) (few : b.length < 2 ^ 63) (t : σ)
    (a : List (PolygeroLinearTerm E)) (statement : Digest) :
    Safe (prover.prove ts b t a statement domain) fun _ => True := by
  have valid := ready.setting.admitted.valid
  refine (safe_check _ _).bind fun _ _ => (safe_check _ _).bind fun _ inside => ?_
  obtain ⟨responses, answered⟩ := responses_returns ready ts few inside statement t
  obtain ⟨indices, t', drawn, count, distinct, range⟩ := queries_returns (ε := String) ts valid
    responses.1.1 responses.1.2 responses.2
  obtain ⟨opened, isOpened⟩ := openColumns_returns ready count distinct range
  simp only [answered, drawn, isOpened, ok_bind]
  exact safe_pure trivial

end Prove

/-! ### The verifier -/

section Verify

variable (setting : Setting param domain)
  {w : List (List E)} (committed : Committed param.toPolygeroParam w) {indices : List Nat}
  (count : indices.length = param.geom.t) (inside : ∀ j ∈ indices, j < param.geom.n)

include setting in
theorem interpolateResponse_returns {source : Nat} {samples : List E}
    (size : samples.length = source) {destination : IndexRange}
    (can : domain.canInterpolate ⟨param.geom.k, param.geom.k + source⟩ destination = true) :
    ∃ values, (domain.interpolateRange param.geom.k samples destination : Exec ε _) = .ok values ∧
      values.length = destination.len := by
  refine ⟨_, ?_, setting.sized.apply can samples (by simpa [IndexRange.len] using size)⟩
  rw [RangeInterpolatorFactory.interpolateRange, size, makeRange_eq can, ok_bind, pure_eq_ok]

include inside in
theorem gather_returns {values : List E} (size : values.length = param.geom.n) :
    (Blas.gather indices values : Exec ε _) = .ok (indices.map fun j => values.getD j 0) :=
  Blas.gather_map _ fun j member => by
    have bound : j < values.length := by
      rw [size]
      exact inside j member
    rw [List.getElem?_eq_getElem bound, List.getD_eq_getElem _ _ bound]

include setting committed count inside

theorem authenticateColumns_safe (sha256 : Bytes → Digest) (f : SerializableField E)
    (distinct : indices.Nodup) (commitment : PolygeroCommitment) {proof : PolygeroProof E}
    (salts : proof.opening.nonce.length = param.geom.t) :
    Safe (authenticateColumns sha256 f param commitment proof indices (queried w indices).flatten)
      fun _ => True := by
  have positive := setting.admitted.valid.queries
  have some : indices ≠ [] := List.ne_nil_of_length_pos (count ▸ positive)
  -- The opened leaves are those of the queried columns.
  obtain ⟨leaves, ran, isIndices⟩ : ∃ leaves : List (Nat × Digest),
      ((List.range indices.length).mapM (fun query => do
        let j ← getAt indices query
        let column ← openedColumn param.toPolygeroParam (queried w indices).flatten query
        let salt ← getAt proof.opening.nonce query
        pure (j, (columnHashes sha256 f param.context).leaf j column salt)) :
          Exec String (List (Nat × Digest))) = .ok leaves ∧ leaves.map Prod.fst = indices := by
    refine ⟨(List.range indices.length).map fun query => (indices.getD query 0,
      (columnHashes sha256 f param.context).leaf (indices.getD query 0)
        (column w (indices.getD query 0))
        (proof.opening.nonce.getD query ⟨Vector.replicate 32 0⟩)), ?_, ?_⟩
    · refine mapM_eq_ok_map fun query member => ?_
      have bound := List.mem_range.mp member
      have salted : query < proof.opening.nonce.length := by omega
      rw [getAt_of_lt bound, ok_bind, openedColumn_eq positive count bound, ok_bind,
        getAt_of_lt salted, ok_bind, pure_eq_ok, List.getD_eq_getElem _ _ bound,
        List.getD_eq_getElem _ _ salted]
    · refine List.ext_getElem (by simp) fun query _ bound => ?_
      simp only [List.getElem_map, List.getElem_range]
      exact List.getD_eq_getElem _ _ bound
  have nonempty : leaves ≠ [] := by
    rintro rfl
    exact some isIndices.symm
  rw [authenticateColumns]
  simp only [ran, ok_bind]
  refine (verifyProofWithHash_safe nonempty (fun leaf member => inside _ ?_) ?_).mapErr _
  · rw [← isIndices]
    exact List.mem_map_of_mem member
  · rw [isIndices]
    exact distinct

theorem verifyPrimaryResponse_safe {h : List E} (size : h.length = param.geom.k + param.geom.s)
    {samples : List (List E)} (rows : samples.length = param.fstarRow)
    (long : ∀ row ∈ samples, row.length = param.geom.s + 1) :
    Safe (verifyPrimaryResponse param.toPolygeroParam domain.toRangeInterpolatorFactory h indices
      samples (queried w indices).flatten) fun _ => True := by
  have expected := expectedPrimary_eq (ε := String) setting.sized setting.capacity committed rows
    long count inside
  obtain ⟨values, extended, length⟩ := interpolateResponse_returns (ε := String) setting size
    setting.capacity.primary
  have gathered := gather_returns (ε := String) inside
    (length.trans (Nat.add_sub_cancel_left ..) : values.length = param.geom.n)
  rw [verifyPrimaryResponse, expected, ok_bind, oracleRange, extended, ok_bind, gathered, ok_bind]
  exact (safe_check _ _).mono fun _ _ => trivial

theorem verifyArithmetic_safe {z : List E} (size : z.length = 2 * param.geom.k)
    {rows : List (List E)} (dataRows : rows.length = param.geom.dataRows)
    (long : ∀ row ∈ rows, row.length = param.geom.k) (tau : E) :
    Safe (verifyArithmetic param.toPolygeroParam domain.toRangeInterpolatorFactory z indices rows
      (queried w indices).flatten tau) fun _ => True := by
  have valid := setting.admitted.valid
  have below := valid.queries_lt
  obtain ⟨values, extended, length⟩ := interpolateResponse_returns (ε := String) setting size
    setting.capacity.response
  rw [len_zero] at length
  obtain ⟨vs, isV, sizeV⟩ := vanishing_returns setting.sized setting.capacity
  obtain ⟨ss, isS, sizeS⟩ := selector_returns setting.sized setting.capacity valid
  have expected := expectedArithmetic_eq (ε := String) setting.sized setting.capacity committed
    dataRows long isV isS sizeV sizeS count inside
  have oracle : ((values.drop param.geom.k).take (values.length - param.geom.k)).length =
      param.geom.n := by
    rw [List.length_take, List.length_drop]
    omega
  rw [verifyArithmetic]
  simp only [extended, ok_bind]
  rw [slice_of_le below.le (by omega), ok_bind]
  refine (safe_check _ _).bind fun _ _ => ?_
  rw [slice_of_le (by omega) le_rfl, ok_bind, gather_returns inside oracle, ok_bind, expected,
    ok_bind]
  exact (safe_check _ _).mono fun _ _ => trivial

end Verify

/-- **The verifier does not panic**, on any proof, commitment and constraints. -/
theorem verify_safe (verifier : PolygeroVerifier)
    (setting : Setting verifier.param domain) (sha256 : Bytes → Digest) (f : SerializableField E)
    (ts : QueryTranscript σ E) (few : b.length < 2 ^ 63)
    (commitment : PolygeroCommitment) (proof : PolygeroProof E) (a : List (PolygeroLinearTerm E))
    (statement : Digest) (t : σ) :
    Safe (verifier.verify sha256 f ts b commitment proof a statement t domain) fun _ => True := by
  have valid := setting.admitted.valid
  have bounded := Machine.bounded_of_valid valid
  have checked : Safe (verifier.validate b commitment proof a domain) fun _ =>
      proof.Shaped verifier.param.geom ∧
        ∀ term ∈ a, term.c < b.length ∧ term.w < verifier.param.geom.nw :=
    (safe_check _ _).bind fun _ _ => (safe_check _ _).bind fun _ _ =>
      ((validateProof_safe verifier.param.geom proof).mapErr _).bind fun _ shaped =>
        (safe_check _ _).mono fun _ inside => ⟨shaped, inside⟩
  refine checked.bind fun _ ⟨shaped, inside⟩ => ?_
  obtain ⟨challenge, t', sampled, alpha, rows, each⟩ := challenges_returns (ε := String) ts valid
    few statement t
  obtain ⟨indices, t'', drawn, count, distinct, range⟩ := queries_returns (ε := String) ts valid
    proof.h proof.z t'
  obtain ⟨w, committed, isReceived⟩ := exists_committed verifier.param.toPolygeroParam shaped.rows
    distinct range count
  have restored := materializeRows_eq (ε := String) valid.queries committed range count
  rw [← isReceived] at restored
  obtain ⟨batched, ran, dataRows, long⟩ := batchConstraints_returns (ε := String) setting inside
    alpha
  have packed := (Machine.exact_of_valid (ε := String) valid).packed
  have sliced : (slice challenge.alpha 0 b.length : Exec String _) = .ok _ :=
    slice_of_le (Nat.zero_le _) (by omega)
  simp only [sampled, drawn, Machine.nrow_eq bounded, packed, restored, ok_bind]
  refine (authenticateColumns_safe setting committed count range sha256 f distinct commitment
    shaped.nonce).bind fun _ _ => ?_
  refine (verifyPrimaryResponse_safe setting committed count range shaped.h rows each).bind
    fun _ _ => ?_
  have same : ((challenge.alpha.drop 0).take (b.length - 0)).length = b.length := by
    rw [List.length_take, List.length_drop]
    omega
  simp only [ran, sliced, Blas.dot_eq same, ok_bind]
  exact (verifyArithmetic_safe setting committed count range shaped.z dataRows long _).bind
    fun _ _ => safe_pure trivial

end Parties

/-! ### The validation suffices -/

/-- The codec, on any proof and on any bytes. -/
def CodecRuns (geom : PolygeroGeometry) : Prop :=
  ∀ {E : Type} (f : SerializableField E) (sf : Subfield E),
    (∀ p : PolygeroProof E, Total (Machine.write geom f sf p)) ∧
      ∀ bytes, Total ((Machine.read geom f sf).run bytes)

section Runs

variable [CommRing E] [DecidableEq E] (sha256 : Bytes → Digest) (f : SerializableField E)
  (sf : Subfield E) (param : BoundParam) (domain : EvaluationDomain E)

/-- The prover, on any witness and any constraints. -/
def ProverRuns : Prop :=
  ∀ {σ ρ : Type} (ts : QueryTranscript σ E) (rng : RandomEngine ρ E), Merkle.FillsBytes rng →
    ∀ (subfieldBoundary : Nat) (witness : List E) (t : σ) (r : ρ),
      Safe (PolygeroProver.commit sha256 f sf ts rng subfieldBoundary witness param t domain r)
        fun result => ∀ (b : List E) (t : σ) (a : List (PolygeroLinearTerm E)) (statement : Digest),
          b.length < 2 ^ 63 → Total (result.1.1.prove ts b t a statement domain)

/-- The verifier, on any proof and any constraints. -/
def VerifierRuns : Prop :=
  ∀ {σ : Type} (ts : QueryTranscript σ E) (received : Option PolygeroCommitment) (b : List E)
    (commitment : PolygeroCommitment) (proof : PolygeroProof E) (a : List (PolygeroLinearTerm E))
    (statement : Digest) (t : σ), b.length < 2 ^ 63 →
      Total (PolygeroVerifier.verify sha256 f ⟨param, received⟩ ts b commitment proof a statement t
        domain)

end Runs

/-- **The validation of a geometry suffices.** The sizes derived from an accepted geometry are
computed without an overflow, a negative difference or a division by zero, and neither the codec nor
the parties, with parameters constructed for it, run out of a range. A slice has fewer than `2 ^ 63`
elements. -/
theorem validate_suffices {geom : PolygeroGeometry} (accepted : Machine.validate geom = .ok ()) :
    (∀ ε : Type, Machine.Exact ε geom) ∧ CodecRuns geom ∧
      ∀ {E : Type} [CommRing E] [DecidableEq E] (sha256 : Bytes → Digest) (f : SerializableField E)
        (sf : Subfield E) (nw : Nat) (products : List PolygeroProductConstraint)
        (config : PolygeroConfig) (domain : EvaluationDomain E) (param : BoundParam),
        Sized domain.toRangeInterpolatorFactory → domain.Tabled →
        BoundParam.tryNew sha256 nw products config domain = .ok param → param.geom = geom →
        geom.k + geom.n ≤ domain.points ∧ ProverRuns sha256 f sf param domain ∧
          VerifierRuns sha256 f param domain := by
  have valid : geom.Valid := validate_eq_ok.mp ((Machine.validate_eq geom).symm.trans accepted)
  refine ⟨fun ε => Machine.exact_of_valid valid, fun f sf => ⟨fun p => ?_, fun bytes => ?_⟩, ?_⟩
  · exact (write_safe f sf geom p).total
  · exact (read_safe f sf geom bytes).total
  · intro E _ _ sha256 f sf nw products config domain param sized tabled made isGeom
    have setting := setting_of_tryNew made sized tabled
    refine ⟨isGeom ▸ (setting.tabled setting.capacity.response).2, ?_, ?_⟩
    · intro σ ρ ts rng fills subfieldBoundary witness t r
      refine (commit_safe setting sha256 f sf ts fills subfieldBoundary witness t r).mono ?_
      intro result ready b t a statement few
      exact (prove_safe ready ts few t a statement).total
    · intro σ ts received b commitment proof a statement t few
      exact (verify_safe ⟨param, received⟩ setting sha256 f ts few commitment proof a statement
        t).total

/-- One witness value and one product, over the rational points, and an empty proof. -/
theorem validate_suffices_one :
    Machine.Exact Unit ⟨1, 1, 4, 1, 8, 1⟩ ∧
      Total (PolygeroVerifier.verify (fun _ => default)
        ⟨false, 0, fun _ => [], fun _ => .ok 0, [], fun _ => rfl⟩
        ⟨⟨⟨⟨1, 1, 4, 1, 8, 1⟩, [⟨0, 0, 0⟩]⟩, [], default⟩, none⟩
        (⟨⟨fun _ t => t, fun _ t => t, fun _ t => t, fun t => (0, t)⟩, fun _ t => (0, t),
          fun _ positive => positive⟩ : QueryTranscript Unit ℚ)
        [] ⟨default⟩ ⟨[], [], [], ⟨[], []⟩⟩ [] default ()
        ⟨lagrange (fun j => (j : ℚ)) 12, [], 12⟩) := by
  have accepted : Machine.validate ⟨1, 1, 4, 1, 8, 1⟩ = .ok () := rfl
  have tabled : (⟨lagrange (fun j => (j : ℚ)) 12, [], 12⟩ : EvaluationDomain ℚ).Tabled :=
    fun can => by
      have ranges := of_decide_eq_true can
      exact ⟨ranges.2.1, ranges.2.2.2⟩
  have made : BoundParam.tryNew (fun _ => default) 1 [⟨0, 0, 0⟩] ⟨4, 1, 8, 1⟩
      (⟨lagrange (fun j => (j : ℚ)) 12, [], 12⟩ : EvaluationDomain ℚ) =
    .ok ⟨⟨⟨1, 1, 4, 1, 8, 1⟩, [⟨0, 0, 0⟩]⟩, [], default⟩ := rfl
  obtain ⟨exact, _, parties⟩ := validate_suffices accepted
  obtain ⟨_, _, verifies⟩ := parties (fun _ => default)
    ⟨false, 0, fun _ => [], fun _ => .ok 0, [], fun _ => rfl⟩
    ⟨fun _ => true, 0, fun _ => [], fun _ => .ok 0, fun _ => rfl⟩ 1 [⟨0, 0, 0⟩] ⟨4, 1, 8, 1⟩
    ⟨lagrange (fun j => (j : ℚ)) 12, [], 12⟩ _ lagrange_sized tabled made rfl
  exact ⟨exact Unit, verifies _ none [] ⟨default⟩ ⟨[], [], [], ⟨[], []⟩⟩ [] default () (by decide)⟩

end Longfellow.Polygero
