/-
**Polygero sizes on 64 bits** (`runtime/proto/src/polygero.rs`, `runtime/polygero/src/config.rs`).

Every size that the code derives from a geometry, computed the way the code does: a sum or a product
that does not fit, a negative difference and a division by zero are panics. The validation computes
some of them before it has accepted the geometry.

* `validate_eq` — **the validation itself does not panic**, on any geometry.
-/

import Longfellow.Lib.Sizes
import Longfellow.Polygero.Layout

namespace Longfellow.PolygeroGeometry

open Lib

variable {ε : Type} {geom : PolygeroGeometry}

namespace Machine

/-! ### The sizes of a geometry -/

section Code

variable (geom : PolygeroGeometry)

def ordinaryWidth : Exec ε Nat := checkedSub geom.k geom.t

def ordinaryRows : Exec ε Nat := do
  let width ← ordinaryWidth geom
  divCeilSize geom.nw width

def productDimension : Exec ε Nat := divCeilSize geom.k 2

def productWidth : Exec ε Nat := do
  let dimension ← productDimension geom
  checkedSub dimension geom.t

/-- Without products the width of a group is never computed. -/
def productGroups : Exec ε Nat :=
  if geom.nq = 0 then pure 0
  else do
    let width ← productWidth geom
    divCeilSize geom.nq width

def dataRows : Exec ε Nat := do
  let rows ← ordinaryRows geom
  let groups ← productGroups geom
  let triples ← mulSize 3 groups
  addSize rows triples

def nrow : Exec ε Nat := do
  let rows ← dataRows geom
  addSize rows 3

def transmittedRows : Exec ε Nat := do
  let rows ← nrow geom
  let groups ← productGroups geom
  checkedSub rows groups

def responseLengths : Exec ε (Nat × Nat) := do
  let h ← addSize geom.k geom.s
  let z ← mulSize 2 geom.k
  pure (h, z)

/-- Check the dimensions. -/
def validate : Exec IoError Unit := do
  check (¬(geom.sizes.any (· > 1 <<< 28) ∨ geom.k = 0 ∨ geom.t ≥ geom.k ∨ geom.t = 0 ∨
    geom.t > geom.n ∨ (checkedAdd geom.k geom.s).all (· > geom.n) ∨
    (checkedMul geom.k 2).all (· > geom.n) ∨
    (geom.nq > 0 ∧ divCeil geom.k 2 ≤ geom.t))) invalid
  let rows ← nrow geom
  check (((checkedMul rows geom.n).filter (· ≤ 1 <<< 28)).isSome) invalid

/-- The opened values of a proof. -/
def openedCount : Exec ε Nat := do
  let rows ← transmittedRows geom
  mulSize geom.t rows

def maxPathLen : Exec ε Nat := do
  let height ← nextPowerOfTwoLog geom.n
  let levels ← addSize height 1
  mulSize geom.t levels

end Code

/-! ### The validation -/

/-- What the first check establishes, before any size is computed. -/
structure Bounded (geom : PolygeroGeometry) : Prop where
  sizes : ∀ size ∈ geom.sizes, size ≤ 2 ^ 28
  queries : 0 < geom.t
  queries_lt : geom.t < geom.k
  primary : geom.k + geom.s ≤ geom.n
  arithmetic : 2 * geom.k ≤ geom.n
  products : 0 < geom.nq → geom.t < geom.productDimension

theorem Bounded.each (bounded : Bounded geom) : geom.nw ≤ 2 ^ 28 ∧ geom.nq ≤ 2 ^ 28 ∧
    geom.k ≤ 2 ^ 28 ∧ geom.s ≤ 2 ^ 28 ∧ geom.n ≤ 2 ^ 28 ∧ geom.t ≤ 2 ^ 28 := by
  have sizes := bounded.sizes
  simpa [PolygeroGeometry.sizes] using sizes

theorem bounded_of_valid (valid : geom.Valid) : Bounded geom :=
  ⟨valid.sizes, valid.queries, valid.queries_lt, valid.primary, valid.arithmetic, valid.products⟩

section Counts

variable (bounded : Bounded geom)
include bounded

theorem Bounded.ordinaryWidth_pos : 0 < geom.ordinaryWidth :=
  Nat.sub_pos_of_lt bounded.queries_lt

theorem Bounded.productWidth_pos (some : 0 < geom.nq) : 0 < geom.productWidth :=
  Nat.sub_pos_of_lt (bounded.products some)

theorem Bounded.ordinaryRows_le : geom.ordinaryRows ≤ 2 ^ 28 :=
  (divCeil_le _ bounded.ordinaryWidth_pos).trans bounded.each.1

theorem Bounded.productGroups_le : geom.productGroups ≤ 2 ^ 28 := by
  rw [PolygeroGeometry.productGroups]
  split
  · exact Nat.zero_le _
  · rename_i some
    have positive := bounded.productWidth_pos (Nat.pos_of_ne_zero some)
    exact (divCeil_le _ positive).trans bounded.each.2.1

theorem ordinaryWidth_eq : (ordinaryWidth geom : Exec ε Nat) = .ok geom.ordinaryWidth :=
  checkedSub_of_le bounded.queries_lt.le

theorem ordinaryRows_eq : (ordinaryRows geom : Exec ε Nat) = .ok geom.ordinaryRows := by
  rw [ordinaryRows, ordinaryWidth_eq bounded, ok_bind,
    divCeilSize_of_pos bounded.ordinaryWidth_pos, PolygeroGeometry.ordinaryRows]

omit bounded in
theorem productDimension_eq : (productDimension geom : Exec ε Nat) = .ok geom.productDimension :=
  divCeilSize_of_pos Nat.two_pos

theorem productWidth_eq (some : 0 < geom.nq) :
    (productWidth geom : Exec ε Nat) = .ok geom.productWidth := by
  rw [productWidth, productDimension_eq, ok_bind, checkedSub_of_le (bounded.products some).le,
    PolygeroGeometry.productWidth]

theorem productGroups_eq : (productGroups geom : Exec ε Nat) = .ok geom.productGroups := by
  rw [productGroups, PolygeroGeometry.productGroups]
  split
  · rfl
  · rename_i some
    have positive := Nat.pos_of_ne_zero some
    rw [productWidth_eq bounded positive, ok_bind,
      divCeilSize_of_pos (bounded.productWidth_pos positive)]

theorem dataRows_eq : (dataRows geom : Exec ε Nat) = .ok geom.dataRows := by
  have rows := bounded.ordinaryRows_le
  have groups := bounded.productGroups_le
  rw [dataRows, ordinaryRows_eq bounded, ok_bind, productGroups_eq bounded, ok_bind,
    mulSize_of_lt (by omega), ok_bind, addSize_of_lt (by omega), PolygeroGeometry.dataRows]

theorem Bounded.nrow_le : geom.nrow ≤ 2 ^ 31 := by
  have rows := bounded.ordinaryRows_le
  have groups := bounded.productGroups_le
  rw [PolygeroGeometry.nrow, PolygeroGeometry.dataRows]
  omega

theorem nrow_eq : (nrow geom : Exec ε Nat) = .ok geom.nrow := by
  have rows := bounded.nrow_le
  rw [PolygeroGeometry.nrow] at rows
  rw [nrow, dataRows_eq bounded, ok_bind, addSize_of_lt (by omega), PolygeroGeometry.nrow]

theorem transmittedRows_eq : (transmittedRows geom : Exec ε Nat) = .ok geom.transmittedRows := by
  have fewer : geom.productGroups ≤ geom.nrow := by
    rw [PolygeroGeometry.nrow, PolygeroGeometry.dataRows]
    omega
  rw [transmittedRows, nrow_eq bounded, ok_bind, productGroups_eq bounded, ok_bind,
    checkedSub_of_le fewer, PolygeroGeometry.transmittedRows]

theorem responseLengths_eq :
    (responseLengths geom : Exec ε (Nat × Nat)) = .ok geom.responseLengths := by
  have small := bounded.each
  rw [responseLengths, addSize_of_lt (by omega), ok_bind, mulSize_of_lt (by omega), ok_bind,
    pure_eq_ok, PolygeroGeometry.responseLengths]

end Counts

theorem any_sizes_iff : ¬(geom.sizes.any (· > 1 <<< 28)) = true ↔ ∀ size ∈ geom.sizes, size ≤ 2 ^ 28 := by
  simp only [List.any_eq_true, decide_eq_true_eq, not_exists, not_and, not_lt, Nat.one_shiftLeft,
    gt_iff_lt]

theorem bounded_iff : ¬(geom.sizes.any (· > 1 <<< 28) ∨ geom.k = 0 ∨ geom.t ≥ geom.k ∨ geom.t = 0 ∨
    geom.t > geom.n ∨ geom.k + geom.s > geom.n ∨ geom.k * 2 > geom.n ∨
    (geom.nq > 0 ∧ geom.productDimension ≤ geom.t)) ↔ Bounded geom := by
  rw [not_or, any_sizes_iff]
  push Not
  constructor
  · rintro ⟨sizes, positive, below, queries, _, primary, arithmetic, products⟩
    exact ⟨sizes, by omega, below, primary, by omega, products⟩
  · rintro ⟨sizes, queries, below, primary, arithmetic, products⟩
    exact ⟨sizes, by omega, below, by omega, by omega, primary, by omega, products⟩

theorem bounded_iff_checked : ¬(geom.sizes.any (· > 1 <<< 28) ∨ geom.k = 0 ∨ geom.t ≥ geom.k ∨
    geom.t = 0 ∨ geom.t > geom.n ∨ (checkedAdd geom.k geom.s).all (· > geom.n) ∨
    (checkedMul geom.k 2).all (· > geom.n) ∨ (geom.nq > 0 ∧ divCeil geom.k 2 ≤ geom.t)) ↔
    Bounded geom := by
  rw [← bounded_iff]
  refine not_congr (or_congr_right' fun sizes => ?_)
  have small : geom.nw ≤ 2 ^ 28 ∧ geom.nq ≤ 2 ^ 28 ∧ geom.k ≤ 2 ^ 28 ∧ geom.s ≤ 2 ^ 28 ∧
      geom.n ≤ 2 ^ 28 ∧ geom.t ≤ 2 ^ 28 := by
    simpa [PolygeroGeometry.sizes] using any_sizes_iff.mp sizes
  have add : checkedAdd geom.k geom.s = some (geom.k + geom.s) := if_pos (by omega)
  have double : checkedMul geom.k 2 = some (geom.k * 2) := if_pos (by omega)
  rw [add, double, Option.all_some, Option.all_some, decide_eq_true_eq, decide_eq_true_eq,
    PolygeroGeometry.productDimension]

/-- **The validation on 64 bits** is the validation, and does not panic on any geometry. -/
theorem validate_eq (geom : PolygeroGeometry) : validate geom = geom.validate := by
  by_cases bounded : Bounded geom
  · have small := bounded.each
    have rows := bounded.nrow_le
    have product : geom.nrow * geom.n < 2 ^ 64 :=
      lt_of_le_of_lt (Nat.mul_le_mul rows small.2.2.2.2.1) (by norm_num)
    have cells : (((checkedMul geom.nrow geom.n).filter (· ≤ 1 <<< 28)).isSome = true) =
        (geom.nrow * geom.n ≤ 1 <<< 28) := by
      rw [checkedMul, if_pos product, Option.filter_some]
      split <;> simp_all
    rw [validate, check_of (bounded_iff_checked.mpr bounded), ok_bind, nrow_eq bounded, ok_bind,
      PolygeroGeometry.validate, check_of (bounded_iff.mpr bounded), ok_bind]
    simp only [cells]
  · rw [validate, check, if_neg (bounded_iff_checked.not.mpr bounded), PolygeroGeometry.validate,
      check, if_neg (bounded_iff.not.mpr bounded)]
    rfl

theorem openedCount_eq (valid : geom.Valid) :
    (openedCount geom : Exec ε Nat) = .ok (geom.t * geom.transmittedRows) := by
  have small := valid.opened_lt
  rw [openedCount, transmittedRows_eq (bounded_of_valid valid), ok_bind, mulSize_of_lt (by omega)]

theorem maxPathLen_eq (valid : geom.Valid) :
    (maxPathLen geom : Exec ε Nat) = .ok geom.maxPathLen := by
  have small := (bounded_of_valid valid).each
  have height : Nat.clog 2 geom.n ≤ 28 :=
    (Nat.clog_le_iff_le_pow Nat.one_lt_two).mpr small.2.2.2.2.1
  have longest := valid.maxPathLen_lt
  rw [PolygeroGeometry.maxPathLen] at longest
  rw [maxPathLen, nextPowerOfTwoLog_of_le (small.2.2.2.2.1.trans (by norm_num)), ok_bind,
    addSize_of_lt (by omega), ok_bind, mulSize_of_lt (by omega), PolygeroGeometry.maxPathLen]

/-! ### The codec -/

section Codec

variable {E : Type} (geom : PolygeroGeometry)

/-- Check the shape of a proof, one part after the other. -/
def validateProof (p : PolygeroProof E) : Exec IoError Unit := do
  validate geom
  let lengths ← responseLengths geom
  check ((p.h.length, p.z.length) = lengths) (invalidData "Polygero proof shape")
  let opened ← openedCount geom
  check (p.rows.length = opened) (invalidData "Polygero proof shape")
  check (p.opening.nonce.length = geom.t) (invalidData "Polygero proof shape")
  let longest ← maxPathLen geom
  check (p.opening.path.length ≤ longest) (invalidData "Polygero proof shape")

variable (f : SerializableField E) (sf : Subfield E)

/-- The bytes of a proof. -/
def write (p : PolygeroProof E) : Exec IoError Bytes := do
  validateProof geom p
  validateCodecs f sf
  let sizes ← geom.sizes.mapM writeSize4bytes
  let runs ← writeEltRuns f sf p.rows
  pure (polygeroMagic ++ (sizes.flatten ++ (p.h.flatMap (writeEltField f) ++
    (p.z.flatMap (writeEltField f) ++ (runs ++
    (writeNonces p.opening.nonce ++ writePath p.opening.path))))))

/-- The bytes that every encoding of the fields has. -/
def neededBytes (count opened : Nat) : Exec IoError Nat := do
  let overflow := invalidData "Polygero size overflow"
  let responses ← okOr (checkedMul count f.serializedSizeBytes) overflow
  let rows ← okOr (checkedMul opened sf.serializedSizeBytes) overflow
  let fields ← okOr (checkedAdd rows responses) overflow
  let salts ← mulSize 32 geom.t
  let salted ← okOr (checkedAdd salts fields) overflow
  okOr (checkedAdd salted 8) overflow

/-- Read the values of a run, after checking that the bytes left can hold them. -/
def readRowRun (subfield : Bool) (length : Nat) : Reader IoError (List E) := fun bytes => do
  let width := if subfield then sf.serializedSizeBytes else f.serializedSizeBytes
  let room ← divSize bytes.length width
  check (length ≤ room) (unexpectedEof "Polygero row run")
  (readMany (readRowElt f sf subfield) length).run bytes

/-- Read the opened rows. -/
def readRows (count : Nat) : Reader IoError (List E) :=
  readRuns readSize4bytes admitRowRun (readRowRun f sf) (count + 1) false true count

/-- Read the Merkle opening. -/
def readOpening : Reader IoError MerkleProof := do
  let nonce ← readNonces geom.t
  let count ← readSize4bytes
  let longest ← liftM (maxPathLen geom : Exec IoError Nat)
  checkLeft (fun bytes => decide (count ≤ longest) && decide (count ≤ bytes.length / 32))
    (invalidData "Polygero frontier length")
  let path ← readMany readDigest count
  pure ⟨nonce, path⟩

/-- Read a proof of the given geometry. -/
def read : Reader IoError (PolygeroProof E) := do
  liftM (validate geom)
  liftM (validateCodecs f sf)
  readMagic polygeroMagic (invalidData "Polygero version marker")
  geom.sizes.forM readExpectedSize
  let lengths ← liftM (responseLengths geom : Exec IoError (Nat × Nat))
  let count ← liftM (addSize lengths.1 lengths.2 : Exec IoError Nat)
  let opened ← liftM (openedCount geom : Exec IoError Nat)
  let needed ← liftM (neededBytes geom f sf count opened)
  checkLeft (fun bytes => needed ≤ bytes.length) (unexpectedEof "Polygero fields")
  let h ← readMany (readField f) lengths.1
  let z ← readMany (readField f) lengths.2
  let rows ← readRows f sf opened
  let opening ← readOpening geom
  pure ⟨h, z, rows, opening⟩

end Codec

section Codec

variable {E : Type} {f : SerializableField E} {sf : Subfield E}

theorem validate_safe (geom : PolygeroGeometry) : Safe geom.validate fun _ => geom.Valid := by
  have safe : Safe geom.validate fun _ => True := by
    unfold PolygeroGeometry.validate
    exact (safe_check _ _).bind fun _ _ => (safe_check _ _).mono fun _ _ => trivial
  exact safe.remember.mono fun _ ran => validate_eq_ok.mp ran.1

/-- **The check of a proof's shape on 64 bits.** -/
theorem validateProof_eq (geom : PolygeroGeometry) (p : PolygeroProof E) :
    validateProof geom p = p.validate geom := by
  rw [validateProof, PolygeroProof.validate, validate_eq]
  rcases validate_safe geom with ⟨_, accepted, valid⟩ | ⟨error, refused⟩
  · rw [accepted, ok_bind, ok_bind, responseLengths_eq (bounded_of_valid valid), ok_bind]
    simp only [openedCount_eq valid, maxPathLen_eq valid, ok_bind, check_check]
    push Not
    rfl
  · rw [refused]
    rfl

/-- **The writer on 64 bits.** -/
theorem write_eq (geom : PolygeroGeometry) (p : PolygeroProof E) :
    write geom f sf p = p.write f sf geom := by
  rw [write, validateProof_eq, PolygeroProof.write]

theorem neededBytes_eq_match (valid : geom.Valid) :
    neededBytes geom f sf (geom.k + geom.s + 2 * geom.k) (geom.t * geom.transmittedRows) =
      match Longfellow.neededBytes f sf geom with
      | some needed => pure needed
      | none => raise (invalidData "Polygero size overflow") := by
  have same : ∀ x : Option Nat, okOr x (invalidData "Polygero size overflow") = match x with
      | some needed => pure needed
      | none => raise (invalidData "Polygero size overflow") := fun x => by cases x <;> rfl
  have small := (bounded_of_valid valid).each
  have salts : (mulSize 32 geom.t : Exec IoError Nat) = .ok (32 * geom.t) :=
    mulSize_of_lt (by omega)
  rw [← same]
  simp only [neededBytes, salts, ok_bind, okOr_bind, Longfellow.neededBytes,
    PolygeroGeometry.responseLengths, Option.bind_eq_bind]

theorem readRowRun_eq (codecs : CodecsValid f sf) :
    readRowRun f sf = Longfellow.readRowRun f sf := by
  funext subfield length bytes
  have positive : 0 < if subfield then sf.serializedSizeBytes else f.serializedSizeBytes := by
    have := codecs.positive
    have := codecs.narrow
    split <;> omega
  simp only [readRowRun, divSize_of_pos positive, ok_bind]
  show _ = checkLeft _ _ bytes >>= fun state => _
  by_cases room : length ≤ bytes.length /
      if subfield then sf.serializedSizeBytes else f.serializedSizeBytes
  · rw [check_of room, checkLeft, if_pos (decide_eq_true room)]
    rfl
  · rw [check, if_neg room, checkLeft, if_neg (by simpa using room)]
    rfl

/-- **The reader on 64 bits.** -/
theorem read_eq (geom : PolygeroGeometry) : read geom f sf = PolygeroProof.read f sf geom := by
  rw [read, PolygeroProof.read, validate_eq]
  rcases validate_safe geom with ⟨_, accepted, valid⟩ | ⟨error, refused⟩
  · have small := (bounded_of_valid valid).each
    have count : (addSize (geom.k + geom.s) (2 * geom.k) : Exec IoError Nat) =
        .ok (geom.k + geom.s + 2 * geom.k) := addSize_of_lt (by omega)
    have codecs : Safe (validateCodecs f sf) fun _ => CodecsValid f sf :=
      (safe_check _ _).remember.mono fun _ ran => validateCodecs_eq_ok.mp ran.1
    rw [accepted, lift_ok_bind, lift_ok_bind]
    rcases codecs with ⟨_, usable, codecs⟩ | ⟨error, refused⟩
    · have rows : readRows f sf = Longfellow.readRows f sf := by
        funext count
        rw [readRows, Longfellow.readRows, readRowRun_eq codecs]
      have opening : readOpening geom = Longfellow.readOpening geom := by
        rw [readOpening, Longfellow.readOpening, maxPathLen_eq valid]
        rfl
      cases needed : Longfellow.neededBytes f sf geom <;>
        simp only [usable, lift_ok_bind, responseLengths_eq (bounded_of_valid valid),
          PolygeroGeometry.responseLengths, count, openedCount_eq valid, neededBytes_eq_match valid,
          needed, rows, opening]
    · rw [refused]
      rfl
  · rw [refused]
    rfl

end Codec

/-! ### All sizes -/

/-- The sizes that the code derives from a geometry are the numbers they stand for. -/
structure Exact (ε : Type) (geom : PolygeroGeometry) : Prop where
  ordinaryWidth : (Machine.ordinaryWidth geom : Exec ε Nat) = .ok geom.ordinaryWidth
  ordinaryRows : (Machine.ordinaryRows geom : Exec ε Nat) = .ok geom.ordinaryRows
  productDimension : (Machine.productDimension geom : Exec ε Nat) = .ok geom.productDimension
  productWidth : 0 < geom.nq → (Machine.productWidth geom : Exec ε Nat) = .ok geom.productWidth
  productGroups : (Machine.productGroups geom : Exec ε Nat) = .ok geom.productGroups
  dataRows : (Machine.dataRows geom : Exec ε Nat) = .ok geom.dataRows
  nrow : (Machine.nrow geom : Exec ε Nat) = .ok geom.nrow
  transmittedRows : (Machine.transmittedRows geom : Exec ε Nat) = .ok geom.transmittedRows
  responseLengths : (Machine.responseLengths geom : Exec ε (Nat × Nat)) = .ok geom.responseLengths
  responses : (addSize (geom.k + geom.s) (2 * geom.k) : Exec ε Nat) =
    .ok (geom.k + geom.s + 2 * geom.k)
  openedCount : (Machine.openedCount geom : Exec ε Nat) = .ok (geom.t * geom.transmittedRows)
  maxPathLen : (Machine.maxPathLen geom : Exec ε Nat) = .ok geom.maxPathLen
  salts : (mulSize 32 geom.t : Exec ε Nat) = .ok (32 * geom.t)
  cells : (mulSize geom.nrow geom.n : Exec ε Nat) = .ok (geom.nrow * geom.n)
  packed : (mulSize geom.nrow geom.t : Exec ε Nat) = .ok (geom.nrow * geom.t)
  block : ∀ row < geom.ordinaryRows,
    (mulSize (row + 1) geom.ordinaryWidth : Exec ε Nat) = .ok ((row + 1) * geom.ordinaryWidth)
  query : ∀ row < geom.nrow, (mulSize (row + 1) geom.t : Exec ε Nat) = .ok ((row + 1) * geom.t)
  copies : (mulSize 3 geom.nq : Exec ε Nat) = .ok (3 * geom.nq)
  column : ∀ length ≤ geom.n, (addSize geom.k length : Exec ε Nat) = .ok (geom.k + length)
  heap : (mulSize 2 geom.n : Exec ε Nat) = .ok (2 * geom.n)

/-- **The sizes of an accepted geometry.** -/
theorem exact_of_valid (valid : geom.Valid) : Exact ε geom := by
  have bounded := bounded_of_valid valid
  have small := bounded.each
  have queries := valid.queries_lt
  have primary := valid.primary
  have cells : geom.nrow * geom.n ≤ 2 ^ 28 := valid.cells
  have packed : geom.nrow * geom.t ≤ geom.nrow * geom.n := Nat.mul_le_mul_left _ (by omega)
  refine ⟨ordinaryWidth_eq bounded, ordinaryRows_eq bounded, productDimension_eq,
    productWidth_eq bounded, productGroups_eq bounded, dataRows_eq bounded, nrow_eq bounded,
    transmittedRows_eq bounded, responseLengths_eq bounded, addSize_of_lt (by omega),
    openedCount_eq valid, maxPathLen_eq valid, mulSize_of_lt (by omega), mulSize_of_lt (by omega),
    mulSize_of_lt (by omega), fun row below => mulSize_of_lt ?_, fun row below => mulSize_of_lt ?_,
    mulSize_of_lt (by omega), fun length fits => addSize_of_lt (by omega), mulSize_of_lt (by omega)⟩
  · have last := mul_lt_of_lt_divCeil bounded.ordinaryWidth_pos below
    have narrow : geom.ordinaryWidth ≤ geom.k := Nat.sub_le _ _
    rw [Nat.succ_mul]
    omega
  · have inside : (row + 1) * geom.t ≤ geom.nrow * geom.t := Nat.mul_le_mul_right _ below
    omega

end Machine

end Longfellow.PolygeroGeometry

namespace Longfellow

open Lib PolygeroGeometry

variable {ε E : Type}

/-! ### The parameters -/

/-- Whether the backend has the capacity for every interpolation of the protocol. Only the first
three sizes are checked ones. -/
def PolygeroConfig.canInterpolateMachine (config : PolygeroConfig)
    (domain : RangeInterpolatorFactory E) : Exec ε Bool :=
  match checkedAdd config.k config.n, checkedAdd config.k config.s, checkedMul config.k 2 with
  | some stop, some work, some double =>
    if config.k = 0 ∨ config.t ≥ config.k ∨ work > config.n ∨ double > config.n then pure false
    else do
      let oracle : IndexRange := ⟨config.k, stop⟩
      let next ← addSize config.k 1
      let half ← divCeilSize config.k 2
      let doubleStop ← addSize config.k double
      let workStop ← addSize config.k work
      let samples ← addSize config.k config.s
      let samplesStop ← addSize samples 1
      let pairs : List (IndexRange × IndexRange) :=
        [(⟨0, config.k⟩, oracle), (⟨0, next⟩, oracle), (⟨0, half⟩, oracle),
          (⟨0, config.k⟩, ⟨config.k, doubleStop⟩), (⟨config.k, double⟩, oracle),
          (⟨config.k, workStop⟩, oracle),
          (⟨config.k, samplesStop⟩, ⟨config.k, workStop⟩),
          (⟨config.k, samplesStop⟩, oracle),
          (⟨config.k, doubleStop⟩, ⟨0, stop⟩)]
      pure (pairs.all fun (source, destination) => domain.canInterpolate source destination)
  | _, _, _ => pure false

/-- The parameters for a witness and its products. -/
def PolygeroParam.tryNewMachine (nw : Nat) (products : List PolygeroProductConstraint)
    (config : PolygeroConfig) (domain : RangeInterpolatorFactory E) : Exec String PolygeroParam := do
  let geom : PolygeroGeometry := ⟨nw, products.length, config.k, config.s, config.n, config.t⟩
  mapErr (fun e => raise e.message) (Machine.validate geom)
  check (∀ p ∈ products, p.x < nw ∧ p.y < nw ∧ p.z < nw) "product index out of bounds"
  let can ← config.canInterpolateMachine domain
  check (can = true) "interpolation capacity exceeded"
  pure ⟨geom, products⟩

theorem canInterpolateMachine_eq (bounded : Machine.Bounded geom)
    (domain : RangeInterpolatorFactory E) :
    (PolygeroConfig.canInterpolateMachine ⟨geom.k, geom.s, geom.n, geom.t⟩ domain : Exec ε Bool) =
      .ok (PolygeroConfig.canInterpolate ⟨geom.k, geom.s, geom.n, geom.t⟩ domain) := by
  have small := bounded.each
  have stop : checkedAdd geom.k geom.n = some (geom.k + geom.n) := if_pos (by omega)
  have work : checkedAdd geom.k geom.s = some (geom.k + geom.s) := if_pos (by omega)
  have double : checkedMul geom.k 2 = some (geom.k * 2) := if_pos (by omega)
  simp only [PolygeroConfig.canInterpolateMachine, PolygeroConfig.canInterpolate, stop, work, double,
    addSize_of_lt (show geom.k + 1 < 2 ^ 64 by omega), divCeilSize_of_pos Nat.two_pos,
    addSize_of_lt (show geom.k + geom.k * 2 < 2 ^ 64 by omega),
    addSize_of_lt (show geom.k + (geom.k + geom.s) < 2 ^ 64 by omega),
    addSize_of_lt (show geom.k + geom.s < 2 ^ 64 by omega),
    addSize_of_lt (show geom.k + geom.s + 1 < 2 ^ 64 by omega), ok_bind, pure_eq_ok]
  split <;> rfl

/-- **The construction on 64 bits.** -/
theorem tryNewMachine_eq (nw : Nat) (products : List PolygeroProductConstraint)
    (config : PolygeroConfig) (domain : RangeInterpolatorFactory E) :
    PolygeroParam.tryNewMachine nw products config domain =
      PolygeroParam.tryNew nw products config domain := by
  rw [PolygeroParam.tryNewMachine, PolygeroParam.tryNew, Machine.validate_eq]
  rcases Machine.validate_safe ⟨nw, products.length, config.k, config.s, config.n, config.t⟩ with
    ⟨_, accepted, valid⟩ | ⟨error, refused⟩
  · have can := canInterpolateMachine_eq (ε := String) (Machine.bounded_of_valid valid) domain
    rw [accepted]
    simp only [mapErr_ok, ok_bind, can]
  · rw [refused]
    rfl

end Longfellow
