/-
**The Polygero constraints and proof format** (`runtime/proto/src/polygero.rs`,
`runtime/polygero/src/config.rs`).

A version marker and the geometry, the two responses at full width, the opened rows as alternating
runs of full-field and subfield elements, the nonces, and the Merkle path behind its length. The
number of responses, of opened values and of nonces comes from the geometry on both sides.

* `reads_polygeroProof`, `canonical_polygeroProof` — **the round trip and its converse**.
-/

import Longfellow.Lib.Sparse
import Longfellow.Proto.Merkle
import Longfellow.Proto.Runs
import Mathlib.Data.Nat.Log

namespace Longfellow

open Lib

/-- A coefficient of a linear constraint: `k w` in equation `c`. -/
abbrev PolygeroLinearTerm (E : Type) := SparseTerm E

/-- One product constraint `w[x] * w[y] = w[z]`, by the original witness indices. -/
structure PolygeroProductConstraint where
  x : Nat
  y : Nat
  z : Nat
  deriving DecidableEq, Repr

/-- The constraint holds of a witness that has its three values. -/
def PolygeroProductConstraint.Holds {E : Type} [Mul E] (q : PolygeroProductConstraint)
    (w : List E) : Prop :=
  ∃ a b, w[q.x]? = some a ∧ w[q.y]? = some b ∧ w[q.z]? = some (a * b)

/-- Public counts of a nonrecursive invocation. -/
structure PolygeroGeometry where
  nw : Nat
  nq : Nat
  k : Nat
  s : Nat
  n : Nat
  t : Nat
  deriving DecidableEq, Repr

namespace PolygeroGeometry

variable (geom : PolygeroGeometry)

/-- The six counts in wire order. -/
def sizes : List Nat := [geom.nw, geom.nq, geom.k, geom.s, geom.n, geom.t]

/-- Witness slots in an ordinary row, after its random values. -/
def ordinaryWidth : Nat := geom.k - geom.t

def ordinaryRows : Nat := divCeil geom.nw geom.ordinaryWidth

/-- Dimension of each product input polynomial. -/
def productDimension : Nat := divCeil geom.k 2

/-- Product slots in each group of two inputs and one output. -/
def productWidth : Nat := geom.productDimension - geom.t

/-- Number of product groups, each represented by three rows. -/
def productGroups : Nat := if geom.nq = 0 then 0 else divCeil geom.nq geom.productWidth

def dataRows : Nat := geom.ordinaryRows + 3 * geom.productGroups

def nrow : Nat := geom.dataRows + 3

/-- Rows carried in the proof; each product-output row is reconstructed. -/
def transmittedRows : Nat := geom.nrow - geom.productGroups

/-- The lengths of the two responses. -/
def responseLengths : Nat × Nat := (geom.k + geom.s, 2 * geom.k)

/-- The longest Merkle path of an opening. -/
def maxPathLen : Nat := geom.t * (Nat.clog 2 geom.n + 1)

/-- The error of a geometry that is not valid. -/
def invalid : IoError := ⟨.invalidInput, "invalid Polygero geometry"⟩

/-- Check the dimensions. -/
def validate : Exec IoError Unit := do
  check (¬(geom.sizes.any (· > 1 <<< 28) ∨ geom.k = 0 ∨ geom.t ≥ geom.k ∨ geom.t = 0 ∨
    geom.t > geom.n ∨ geom.k + geom.s > geom.n ∨ geom.k * 2 > geom.n ∨
    (geom.nq > 0 ∧ geom.productDimension ≤ geom.t))) invalid
  check (geom.nrow * geom.n ≤ 1 <<< 28) invalid

/-- A geometry that passes its validation. -/
structure Valid : Prop where
  sizes : ∀ size ∈ geom.sizes, size ≤ 2 ^ 28
  queries : 0 < geom.t
  queries_lt : geom.t < geom.k
  primary : geom.k + geom.s ≤ geom.n
  arithmetic : 2 * geom.k ≤ geom.n
  products : 0 < geom.nq → geom.t < geom.productDimension
  cells : geom.nrow * geom.n ≤ 2 ^ 28

theorem validate_eq_ok {geom : PolygeroGeometry} {u : Unit} :
    geom.validate = .ok u ↔ geom.Valid := by
  simp only [validate, bind_eq_ok, check_eq_ok, List.any_eq_true, decide_eq_true_eq]
  constructor
  · rintro ⟨_, bounds, cells⟩
    push Not at bounds
    obtain ⟨sizes, positive, below, queries, _, primary, arithmetic, products⟩ := bounds
    exact ⟨sizes, by omega, below, primary, by omega, products, cells⟩
  · rintro ⟨sizes, queries, below, primary, arithmetic, products, cells⟩
    refine ⟨(), ?_, cells⟩
    push Not
    exact ⟨sizes, by omega, below, by omega, by omega, primary, by omega, products⟩

theorem three_le_transmittedRows : 3 ≤ geom.transmittedRows := by
  unfold transmittedRows nrow dataRows
  omega

variable {geom} (valid : geom.Valid)

include valid

theorem Valid.maxPathLen_lt : geom.maxPathLen < 2 ^ 32 := by
  have rows : 3 * geom.n ≤ 2 ^ 28 := by
    refine le_trans (Nat.mul_le_mul_right _ ?_) valid.cells
    unfold nrow
    omega
  have height : Nat.clog 2 geom.n ≤ 28 :=
    (Nat.clog_le_iff_le_pow (by norm_num)).mpr (by omega)
  have few : geom.t ≤ 2 ^ 26 := by
    have := valid.queries_lt
    have := valid.arithmetic
    omega
  calc geom.maxPathLen ≤ 2 ^ 26 * 29 := Nat.mul_le_mul few (by omega)
    _ < 2 ^ 32 := by decide

theorem Valid.opened_lt : geom.t * geom.transmittedRows < 2 ^ 32 := by
  have fewer : geom.t ≤ geom.n := by
    have := valid.queries_lt
    have := valid.arithmetic
    omega
  have rows : geom.transmittedRows ≤ geom.nrow := Nat.sub_le _ _
  calc geom.t * geom.transmittedRows ≤ geom.n * geom.nrow := Nat.mul_le_mul fewer rows
    _ ≤ 2 ^ 28 := by
        rw [Nat.mul_comm]
        exact valid.cells
    _ < 2 ^ 32 := by decide

end PolygeroGeometry

/-! ### The proof -/

/-- A Polygero proof: the responses, the opened rows and their Merkle opening. -/
structure PolygeroProof (E : Type) where
  h : List E
  z : List E
  rows : List E
  opening : MerkleProof
  deriving DecidableEq, Repr

variable {E : Type}

/-- A proof of the shape of the geometry. -/
structure PolygeroProof.Shaped (p : PolygeroProof E) (geom : PolygeroGeometry) : Prop where
  valid : geom.Valid
  h : p.h.length = geom.k + geom.s
  z : p.z.length = 2 * geom.k
  rows : p.rows.length = geom.t * geom.transmittedRows
  nonce : p.opening.nonce.length = geom.t
  path : p.opening.path.length ≤ geom.maxPathLen

/-- Check the shape of a proof. -/
def PolygeroProof.validate (p : PolygeroProof E) (geom : PolygeroGeometry) : Exec IoError Unit := do
  geom.validate
  check (¬((p.h.length, p.z.length) ≠ geom.responseLengths ∨
    p.rows.length ≠ geom.t * geom.transmittedRows ∨ p.opening.nonce.length ≠ geom.t ∨
    p.opening.path.length > geom.maxPathLen)) (invalidData "Polygero proof shape")

variable {p : PolygeroProof E}

theorem PolygeroProof.validate_eq_ok {geom : PolygeroGeometry} {u : Unit} :
    p.validate geom = .ok u ↔ p.Shaped geom := by
  simp only [PolygeroProof.validate, bind_eq_ok, check_eq_ok, PolygeroGeometry.validate_eq_ok]
  constructor
  · rintro ⟨_, valid, shape⟩
    push Not at shape
    obtain ⟨responses, rows, nonce, path⟩ := shape
    exact ⟨valid, (Prod.mk.inj responses).1, (Prod.mk.inj responses).2, rows, nonce, path⟩
  · rintro ⟨valid, h, z, rows, nonce, path⟩
    refine ⟨(), valid, ?_⟩
    push Not
    exact ⟨by rw [h, z, PolygeroGeometry.responseLengths], rows, nonce, path⟩

section Model

variable (f : SerializableField E) (sf : Subfield E)

/-- Check the widths of the two codecs. -/
def validateCodecs : Exec IoError Unit :=
  check (¬(sf.serializedSizeBytes = 0 ∨ sf.serializedSizeBytes > f.serializedSizeBytes))
    (invalidData "invalid Polygero subfield codec")

/-- The version marker `PLG7`. -/
def polygeroMagic : Bytes := [0x50, 0x4C, 0x47, 0x37]

/-- The bytes of a proof. -/
def PolygeroProof.write (p : PolygeroProof E) (geom : PolygeroGeometry) : Exec IoError Bytes := do
  p.validate geom
  validateCodecs f sf
  let sizes ← geom.sizes.mapM writeSize4bytes
  let runs ← writeEltRuns f sf p.rows
  pure (polygeroMagic ++ (sizes.flatten ++ (p.h.flatMap (writeEltField f) ++
    (p.z.flatMap (writeEltField f) ++ (runs ++
    (writeNonces p.opening.nonce ++ writePath p.opening.path))))))

/-- Read a size that the geometry fixes. -/
def readExpectedSize (expected : Nat) : Reader IoError Unit := do
  let size ← readSize4bytes
  liftM (check (size = expected) (invalidData "Polygero geometry mismatch"))

/-- The bytes that every encoding of the fields has, or nothing when the sum does not fit. -/
def neededBytes (geom : PolygeroGeometry) : Option Nat := do
  let count := geom.responseLengths.1 + geom.responseLengths.2
  let responses ← checkedMul count f.serializedSizeBytes
  let opened ← checkedMul (geom.t * geom.transmittedRows) sf.serializedSizeBytes
  let fields ← checkedAdd opened responses
  let salted ← checkedAdd (32 * geom.t) fields
  checkedAdd salted 8

/-- Read a field element, refusing one that does not encode to the bytes read. -/
def readField : Reader IoError E := do
  let raw ← takeBytes f.serializedSizeBytes (unexpectedEof "Polygero field element")
  let value ← liftM (parsed (f.bytesToElement raw) fun _ => invalidData "invalid field element")
  liftM (check (f.toBytes value = raw) (invalidData "noncanonical field element"))
  pure value

/-- The reader's guard on a run length. -/
def admitRowRun (first : Bool) (remaining length : Nat) : Exec IoError Unit :=
  check (¬((length = 0 ∧ first = false) ∨ length > remaining))
    (invalidData "invalid Polygero row run length")

/-- Read one value of a row, in a run of the given class. -/
def readRowElt (subfield : Bool) : Reader IoError E := do
  let value ← (if subfield then readSubfieldElt sf else readField f : Reader IoError E)
  liftM (check (sf.contains value = subfield) (invalidData "noncanonical Polygero row encoding"))
  pure value

/-- Read the values of a run, after checking that the bytes left can hold them. -/
def readRowRun (subfield : Bool) (length : Nat) : Reader IoError (List E) := do
  let width := if subfield then sf.serializedSizeBytes else f.serializedSizeBytes
  checkLeft (fun bytes => length ≤ bytes.length / width) (unexpectedEof "Polygero row run")
  readMany (readRowElt f sf subfield) length

/-- Read the opened rows. -/
def readRows (count : Nat) : Reader IoError (List E) :=
  readRuns readSize4bytes admitRowRun (readRowRun f sf) (count + 1) false true count

/-- Read the Merkle opening. -/
def readOpening (geom : PolygeroGeometry) : Reader IoError MerkleProof := do
  let nonce ← readNonces geom.t
  let count ← readSize4bytes
  checkLeft (fun bytes => decide (count ≤ geom.maxPathLen) && decide (count ≤ bytes.length / 32))
    (invalidData "Polygero frontier length")
  let path ← readMany readDigest count
  pure ⟨nonce, path⟩

/-- Read a proof of the given geometry. -/
def PolygeroProof.read (geom : PolygeroGeometry) : Reader IoError (PolygeroProof E) := do
  liftM geom.validate
  liftM (validateCodecs f sf)
  readMagic polygeroMagic (invalidData "Polygero version marker")
  geom.sizes.forM readExpectedSize
  let needed ← liftM (match neededBytes f sf geom with
    | some needed => pure needed
    | none => raise (invalidData "Polygero size overflow") : Exec IoError Nat)
  checkLeft (fun bytes => needed ≤ bytes.length) (unexpectedEof "Polygero fields")
  let h ← readMany (readField f) geom.responseLengths.1
  let z ← readMany (readField f) geom.responseLengths.2
  let rows ← readRows f sf (geom.t * geom.transmittedRows)
  let opening ← readOpening geom
  pure ⟨h, z, rows, opening⟩

end Model

variable {f : SerializableField E} {sf : Subfield E}

/-! ### The parts -/

/-- The two codecs have usable widths. -/
structure CodecsValid (f : SerializableField E) (sf : Subfield E) : Prop where
  positive : 0 < sf.serializedSizeBytes
  narrow : sf.serializedSizeBytes ≤ f.serializedSizeBytes

theorem validateCodecs_eq_ok {u : Unit} : validateCodecs f sf = .ok u ↔ CodecsValid f sf := by
  rw [validateCodecs, check_eq_ok]
  constructor
  · intro widths
    exact ⟨by omega, by omega⟩
  · rintro ⟨positive, narrow⟩
    omega

theorem reads_sizes {sizes : List Nat} (fit : ∀ size ∈ sizes, size < 2 ^ 32) :
    Reads (sizes.forM readExpectedSize) (sizes.flatMap (leBytes 4)) () := by
  induction sizes with
  | nil => exact Reads.pure ()
  | cons size sizes ih =>
    rw [List.flatMap_cons]
    show Reads (readExpectedSize size >>= fun _ => sizes.forM readExpectedSize) _ _
    refine Reads.bind (a := ()) ?_
      (ih fun later member => fit later (List.mem_cons_of_mem _ member))
    exact (reads_size4bytes (fit size (List.mem_cons_self ..))).checked (Reads.lift (check_of rfl))

theorem canonical_sizes {sizes : List Nat} :
    Canonical (sizes.forM readExpectedSize) (fun _ => True)
      (fun _ => sizes.flatMap (leBytes 4)) := by
  induction sizes with
  | nil =>
    intro bytes u rest ran
    exact ⟨trivial, (reader_pure_eq_ok.mp ran).2⟩
  | cons size sizes ih =>
    intro bytes u rest whole
    obtain ⟨_, middle, head, ran⟩ := reader_bind_eq_ok.mp whole
    obtain ⟨value, after, read, checked⟩ := reader_bind_eq_ok.mp head
    obtain ⟨same, rfl⟩ := reader_lift_eq_ok.mp checked
    obtain rfl := check_eq_ok.mp same
    obtain ⟨_, rfl⟩ := canonical_size4bytes read
    obtain ⟨_, rfl⟩ := ih ran
    exact ⟨trivial, by simp only [List.flatMap_cons, List.append_assoc]⟩

theorem neededBytes_eq {geom : PolygeroGeometry} {total : Nat}
    (sum : total = (geom.k + geom.s + 2 * geom.k) * f.serializedSizeBytes +
      geom.t * geom.transmittedRows * sf.serializedSizeBytes + 32 * geom.t + 8)
    (fits : total < 2 ^ 64) : neededBytes f sf geom = some total := by
  unfold neededBytes checkedMul checkedAdd PolygeroGeometry.responseLengths
  simp only [bind, Option.bind]
  rw [if_pos (by omega)]
  simp only
  rw [if_pos (by omega)]
  simp only
  rw [if_pos (by omega)]
  simp only
  rw [if_pos (by omega)]
  simp only
  rw [if_pos (by omega), sum]
  congr 1
  omega

theorem reads_field (field : LawfulField f) (e : E) : Reads (readField f) (writeEltField f e) e := by
  refine (reads_takeBytes (f.length_toBytes e)).checked ?_
  refine Reads.guarded (Reads.lift (parsed_eq_ok.mpr (field.parse_toBytes e))) ?_
  exact Reads.guarded (Reads.lift (check_of rfl)) (Reads.pure e)

theorem canonical_field : Canonical (readField f) (fun _ => True) (writeEltField f) := by
  intro bytes e rest ran
  obtain ⟨raw, _, taken, ran⟩ := reader_bind_eq_ok.mp ran
  obtain ⟨value, _, parse, ran⟩ := reader_bind_eq_ok.mp ran
  obtain ⟨_, _, checked, ran⟩ := reader_bind_eq_ok.mp ran
  obtain ⟨rfl, rfl⟩ := reader_pure_eq_ok.mp ran
  obtain ⟨canonical, rfl⟩ := reader_lift_eq_ok.mp checked
  obtain ⟨_, rfl⟩ := reader_lift_eq_ok.mp parse
  obtain ⟨_, rfl⟩ := takeBytes_eq_ok.mp taken
  exact ⟨trivial, by rw [writeEltField, check_eq_ok.mp canonical]⟩

theorem admitRowRun_eq_ok {first : Bool} {remaining n : Nat} :
    admitRowRun first remaining n = .ok () ↔ n ≤ remaining ∧ (n = 0 → first = true) := by
  rw [admitRowRun, check_eq_ok]
  cases first with
  | true => simp
  | false =>
    simp only [and_true, Bool.false_eq_true, imp_false]
    omega

theorem reads_rowElt (field : LawfulField f) (subfield : LawfulSubfield sf) {flag : Bool} {x : E}
    (member : sf.contains x = flag) : Reads (readRowElt f sf flag) (runElt f sf flag x) x := by
  have read : Reads (if flag then readSubfieldElt sf else readField f) (runElt f sf flag x) x := by
    cases flag with
    | true => exact reads_subfieldElt subfield member
    | false => exact reads_field field x
  exact read.checked (Reads.guarded (Reads.lift (check_of member)) (Reads.pure x))

theorem canonical_rowElt (subfield : LawfulSubfield sf) (flag : Bool) :
    Canonical (readRowElt f sf flag) (fun x => sf.contains x = flag) (runElt f sf flag) := by
  intro bytes x rest ran
  obtain ⟨value, _, read, ran⟩ := reader_bind_eq_ok.mp ran
  obtain ⟨_, _, checked, ran⟩ := reader_bind_eq_ok.mp ran
  obtain ⟨rfl, rfl⟩ := reader_pure_eq_ok.mp ran
  obtain ⟨isClass, rfl⟩ := reader_lift_eq_ok.mp checked
  refine ⟨check_eq_ok.mp isClass, ?_⟩
  cases flag with
  | true => exact (canonical_subfieldElt subfield read).2
  | false => exact (canonical_field read).2

theorem length_flatMap_writeEltField (row : List E) :
    (row.flatMap (writeEltField f)).length = row.length * f.serializedSizeBytes := by
  simp [List.length_flatMap, writeEltField, f.length_toBytes]

theorem length_run_le {flag : Bool} {run : List E} (codecs : CodecsValid f sf) (rest : Bytes) :
    run.length ≤ (run.flatMap (runElt f sf flag) ++ rest).length /
      (if flag then sf.serializedSizeBytes else f.serializedSizeBytes) := by
  have positive := codecs.positive
  have narrow := codecs.narrow
  cases flag with
  | true =>
    have size : (run.flatMap (runElt f sf true)).length = run.length * sf.serializedSizeBytes := by
      simp [List.length_flatMap, runElt, sf.length_toBytes]
    rw [if_pos rfl, Nat.le_div_iff_mul_le positive, List.length_append, size]
    omega
  | false =>
    have size : (run.flatMap (runElt f sf false)).length = run.length * f.serializedSizeBytes := by
      simp [List.length_flatMap, runElt, f.length_toBytes]
    rw [if_neg Bool.false_ne_true, Nat.le_div_iff_mul_le (by omega), List.length_append, size]
    omega

variable {bytes : Bytes}

theorem reads_rows (field : LawfulField f) (subfield : LawfulSubfield sf)
    (codecs : CodecsValid f sf) {rows : List E} (written : writeEltRuns f sf rows = .ok bytes) :
    Reads (readRows f sf rows.length) bytes rows := by
  refine reads_eltRuns ?_ (fun uniform => ?_) written
  · intro flag first run rest inside uniform emptyFirst
    exact admitRowRun_eq_ok.mpr ⟨by simp, fun none => emptyFirst (List.length_eq_zero_iff.mp none)⟩
  · refine Reads.checkedLeft (fun rest => decide_eq_true (length_run_le codecs rest)) ?_
    exact reads_many fun x member => reads_rowElt field subfield (uniform x member)

theorem canonical_rows (subfield : LawfulSubfield sf) {rows : List E} {rest : Bytes} {count : Nat}
    (ran : (readRows f sf count).run bytes = .ok (rows, rest)) :
    rows.length = count ∧ ∃ w, writeEltRuns f sf rows = .ok w ∧ bytes = w ++ rest := by
  refine canonical_eltRuns (fun admitted => admitRowRun_eq_ok.mp admitted) ?_ ran
  intro flag n bytes run rest ran
  obtain ⟨_, _, checked, ran⟩ := reader_bind_eq_ok.mp ran
  obtain ⟨_, rfl⟩ := checkLeft_eq_ok.mp checked
  exact canonical_many (canonical_rowElt subfield flag) n ran

theorem reads_opening {geom : PolygeroGeometry} (valid : geom.Valid) {opening : MerkleProof}
    (nonce : opening.nonce.length = geom.t) (path : opening.path.length ≤ geom.maxPathLen) :
    Reads (readOpening geom) (writeNonces opening.nonce ++ writePath opening.path) opening := by
  refine (nonce ▸ reads_nonces opening.nonce).bind ?_
  refine (reads_size4bytes (path.trans_lt valid.maxPathLen_lt)).bind ?_
  refine Reads.checkedLeft (fun rest => ?_)
    ((reads_digests opening.path).checked (Reads.pure opening))
  have room : opening.path.length ≤ (writeDigests opening.path ++ rest).length / 32 := by
    rw [List.length_append, length_writeDigests]
    omega
  simp only [path, room, decide_true, Bool.and_self]

theorem canonical_opening {geom : PolygeroGeometry} :
    Canonical (readOpening geom)
      (fun opening => opening.nonce.length = geom.t ∧ opening.path.length ≤ geom.maxPathLen)
      (fun opening => writeNonces opening.nonce ++ writePath opening.path) := by
  intro bytes opening rest ran
  obtain ⟨nonce, _, readNonces, ran⟩ := reader_bind_eq_ok.mp ran
  obtain ⟨count, _, readCount, ran⟩ := reader_bind_eq_ok.mp ran
  obtain ⟨_, _, checked, ran⟩ := reader_bind_eq_ok.mp ran
  obtain ⟨path, _, readPath, ran⟩ := reader_bind_eq_ok.mp ran
  obtain ⟨rfl, rfl⟩ := reader_pure_eq_ok.mp ran
  obtain ⟨sizeNonce, rfl⟩ := canonical_nonces _ readNonces
  obtain ⟨_, rfl⟩ := canonical_size4bytes readCount
  obtain ⟨within, rfl⟩ := checkLeft_eq_ok.mp checked
  obtain ⟨rfl, rfl⟩ := canonical_digests _ readPath
  have short : path.length ≤ geom.maxPathLen := by
    simp only [Bool.and_eq_true, decide_eq_true_eq] at within
    exact within.1
  exact ⟨⟨sizeNonce, short⟩, by simp only [writePath, List.append_assoc]⟩

/-! ### The whole proof -/

/-- The bytes of a shaped proof, given those of its rows. -/
def PolygeroProof.layout (f : SerializableField E) (p : PolygeroProof E) (geom : PolygeroGeometry)
    (runs : Bytes) : Bytes :=
  polygeroMagic ++ (geom.sizes.flatMap (leBytes 4) ++ (p.h.flatMap (writeEltField f) ++
    (p.z.flatMap (writeEltField f) ++ (runs ++
    (writeNonces p.opening.nonce ++ writePath p.opening.path)))))

theorem PolygeroProof.write_eq_ok {geom : PolygeroGeometry} :
    p.write f sf geom = .ok bytes ↔ p.Shaped geom ∧ CodecsValid f sf ∧
      ∃ runs, writeEltRuns f sf p.rows = .ok runs ∧ bytes = p.layout f geom runs := by
  have sizes : p.Shaped geom → (geom.sizes.mapM writeSize4bytes : Exec IoError (List Bytes)) =
      .ok (geom.sizes.map (leBytes 4)) := fun shaped =>
    mapM_eq_ok_map fun size member => writeSize4bytes_eq_ok.mpr
      ⟨(shaped.valid.sizes size member).trans_lt (by decide), rfl⟩
  simp only [PolygeroProof.write, bind_eq_ok, PolygeroProof.validate_eq_ok,
    validateCodecs_eq_ok, pure_eq_ok, Except.ok.injEq]
  constructor
  · rintro ⟨_, shaped, _, codecs, sizeBytes, sizesWritten, runs, runsWritten, rfl⟩
    rw [sizes shaped] at sizesWritten
    obtain rfl := Except.ok.inj sizesWritten
    exact ⟨shaped, codecs, runs, runsWritten, rfl⟩
  · rintro ⟨shaped, codecs, runs, runsWritten, rfl⟩
    exact ⟨(), shaped, (), codecs, _, sizes shaped, runs, runsWritten, rfl⟩

theorem PolygeroProof.write_returns {geom : PolygeroGeometry} (shaped : p.Shaped geom)
    (codecs : CodecsValid f sf) :
    ∃ bytes, p.write f sf geom = .ok bytes := by
  have short : RunsBelow sf (2 ^ 32) p.rows := fun flag run inside _ =>
    (inside.length_le.trans shaped.rows.le).trans_lt shaped.valid.opened_lt
  obtain ⟨runs, runsWritten⟩ := writeEltRuns_returns (f := f) short
  exact ⟨_, PolygeroProof.write_eq_ok.mpr ⟨shaped, codecs, runs, runsWritten, rfl⟩⟩

/-- **The reader returns the proof that was written**, given a byte string of machine size. -/
theorem reads_polygeroProof (field : LawfulField f) (subfield : LawfulSubfield sf)
    {geom : PolygeroGeometry} (written : p.write f sf geom = .ok bytes)
    (machine : bytes.length < 2 ^ 64) :
    Reads (PolygeroProof.read f sf geom) bytes p := by
  obtain ⟨shaped, codecs, runs, runsWritten, rfl⟩ := PolygeroProof.write_eq_ok.mp written
  have valid := shaped.valid
  have fit : ∀ size ∈ geom.sizes, size < 2 ^ 32 := fun size member =>
    (valid.sizes size member).trans_lt (by decide)
  have some : p.rows ≠ [] := by
    have rows := shaped.rows
    have := Nat.mul_le_mul valid.queries geom.three_le_transmittedRows
    intro empty
    rw [empty, List.length_nil] at rows
    omega
  have runsLength := length_writeEltRuns codecs.narrow some runsWritten
  rw [shaped.rows] at runsLength
  set total := (geom.k + geom.s + 2 * geom.k) * f.serializedSizeBytes +
    geom.t * geom.transmittedRows * sf.serializedSizeBytes + 32 * geom.t + 8 with sum
  -- What follows the sizes is at least as long as the reader demands.
  have room : total ≤ (p.h.flatMap (writeEltField f) ++ (p.z.flatMap (writeEltField f) ++ (runs ++
      (writeNonces p.opening.nonce ++ writePath p.opening.path)))).length := by
    simp only [List.length_append, length_flatMap_writeEltField, length_writeNonces, writePath,
      length_leBytes, shaped.h, shaped.z, shaped.nonce, sum, Nat.add_mul]
    omega
  have fits : total < 2 ^ 64 := by
    refine room.trans_lt (lt_of_le_of_lt ?_ machine)
    simp only [PolygeroProof.layout, List.length_append]
    omega
  refine Reads.guarded (a := ()) (Reads.lift (PolygeroGeometry.validate_eq_ok.mpr valid)) ?_
  refine Reads.guarded (a := ()) (Reads.lift (validateCodecs_eq_ok.mpr codecs)) ?_
  refine (reads_magic _ _).bind ?_
  refine (reads_sizes fit).bind ?_
  rw [neededBytes_eq sum fits]
  refine Reads.guarded (Reads.lift rfl) ?_
  refine Reads.checkedLeft (fun rest => ?_) ?_
  · rw [decide_eq_true_eq, List.length_append]
    omega
  refine Reads.bind (shaped.h ▸ reads_many fun e _ => reads_field field e) ?_
  refine Reads.bind (shaped.z ▸ reads_many fun e _ => reads_field field e) ?_
  refine (shaped.rows ▸ reads_rows field subfield codecs runsWritten).bind ?_
  exact (reads_opening valid shaped.nonce shaped.path).checked (Reads.pure p)

/-- **Writing an accepted proof reproduces the bytes consumed.** -/
theorem canonical_polygeroProof (subfield : LawfulSubfield sf) {geom : PolygeroGeometry}
    {rest : Bytes} (ran : (PolygeroProof.read f sf geom).run bytes = .ok (p, rest)) :
    ∃ w, p.write f sf geom = .ok w ∧ bytes = w ++ rest := by
  obtain ⟨_, _, validated, ran⟩ := reader_bind_eq_ok.mp ran
  obtain ⟨_, _, widths, ran⟩ := reader_bind_eq_ok.mp ran
  obtain ⟨_, _, magic, ran⟩ := reader_bind_eq_ok.mp ran
  obtain ⟨_, _, sizes, ran⟩ := reader_bind_eq_ok.mp ran
  obtain ⟨needed, _, computed, ran⟩ := reader_bind_eq_ok.mp ran
  obtain ⟨_, _, enough, ran⟩ := reader_bind_eq_ok.mp ran
  obtain ⟨h, _, readH, ran⟩ := reader_bind_eq_ok.mp ran
  obtain ⟨z, _, readZ, ran⟩ := reader_bind_eq_ok.mp ran
  obtain ⟨rows, _, readRows, ran⟩ := reader_bind_eq_ok.mp ran
  obtain ⟨opening, _, readOpening, ran⟩ := reader_bind_eq_ok.mp ran
  obtain ⟨rfl, rfl⟩ := reader_pure_eq_ok.mp ran
  obtain ⟨valid, rfl⟩ := reader_lift_eq_ok.mp validated
  obtain ⟨codecs, rfl⟩ := reader_lift_eq_ok.mp widths
  obtain rfl := readMagic_eq_ok.mp magic
  obtain ⟨_, rfl⟩ := canonical_sizes sizes
  obtain ⟨_, rfl⟩ := reader_lift_eq_ok.mp computed
  obtain ⟨_, rfl⟩ := checkLeft_eq_ok.mp enough
  obtain ⟨⟨sizeH, _⟩, rfl⟩ := canonical_many canonical_field _ readH
  obtain ⟨⟨sizeZ, _⟩, rfl⟩ := canonical_many canonical_field _ readZ
  obtain ⟨sizeRows, runs, runsWritten, rfl⟩ := canonical_rows subfield readRows
  obtain ⟨⟨sizeNonce, short⟩, rfl⟩ := canonical_opening readOpening
  refine ⟨_, PolygeroProof.write_eq_ok.mpr ⟨⟨PolygeroGeometry.validate_eq_ok.mp valid, sizeH, sizeZ,
    sizeRows, sizeNonce, short⟩, validateCodecs_eq_ok.mp codecs, runs, runsWritten, rfl⟩, ?_⟩
  simp only [PolygeroProof.layout, List.append_assoc]

end Longfellow
