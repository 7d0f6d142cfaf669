/-
**The Ligero proof format** (`runtime/proto/src/ligero.rs`).

The blinding rows at full width, the nonces, the opened columns as alternating runs of full-field
and subfield elements, and the Merkle path behind its length. All other lengths come from the
geometry.

* `ligeroProof_codec` — **the format is a bijection** between the proofs within the reader's limits
  and the byte strings it accepts.
-/

import Longfellow.Proto.Merkle
import Longfellow.Proto.Runs

namespace Longfellow

open Lib

/-- The dimensions of a Ligero proof. -/
structure LigeroGeometry where
  block : Nat
  dblock : Nat
  r : Nat
  blockEnc : Nat
  nrow : Nat
  nreq : Nat
  mcPathlen : Nat
  deriving DecidableEq, Repr

/-- A Ligero proof: the blinding rows of the low-degree, dot-product and quadratic checks (the
middle of the last one omitted), the opened columns, and their Merkle opening. -/
structure LigeroProof (E : Type) where
  yLdt : List E
  yDot : List E
  yQuad0 : List E
  yQuad2 : List E
  req : List E
  merkle : MerkleProof
  deriving DecidableEq, Repr

variable {E : Type}

/-- The rows of the proof have the lengths of the geometry. -/
structure LigeroProof.Matches (p : LigeroProof E) (geom : LigeroGeometry) : Prop where
  ordered : geom.block ≤ geom.dblock
  yLdt : p.yLdt.length = geom.block
  yDot : p.yDot.length = geom.dblock
  yQuad0 : p.yQuad0.length = geom.r
  yQuad2 : p.yQuad2.length = geom.dblock - geom.block
  nonce : p.merkle.nonce.length = geom.nreq
  req : p.req.length = geom.nreq * geom.nrow

section Model

variable (f : SerializableField E) (sf : Subfield E)

/-- The bytes of a proof. -/
def LigeroProof.write (p : LigeroProof E) (geom : LigeroGeometry) : Exec IoError Bytes := do
  ensure (p.yLdt.length = geom.block) "y_ldt length mismatch"
  ensure (p.yDot.length = geom.dblock) "y_dot length mismatch"
  ensure (p.yQuad0.length = geom.r) "y_quad_0 length mismatch"
  let last ← checkedSub geom.dblock geom.block
  ensure (p.yQuad2.length = last) "y_quad_2 length mismatch"
  ensure (p.merkle.nonce.length = geom.nreq) "nonce length mismatch"
  ensure (p.req.length = geom.nreq * geom.nrow) "req length mismatch"
  let runs ← writeEltRuns f sf p.req
  let pathLen ← writeSize4bytes p.merkle.path.length
  pure (p.yLdt.flatMap (writeEltField f) ++ (p.yDot.flatMap (writeEltField f) ++
    (p.yQuad0.flatMap (writeEltField f) ++ (p.yQuad2.flatMap (writeEltField f) ++
    (writeNonces p.merkle.nonce ++ (runs ++ (pathLen ++ writeDigests p.merkle.path)))))))

/-- The longest run the reader accepts, plus one. -/
def maxRunLen : Nat := 1 <<< 25

/-- The reader's guard on a run length. -/
def admitReqRun (first : Bool) (remaining runlen : Nat) : Exec IoError Unit :=
  check (¬((runlen = 0 ∧ first = false) ∨ runlen ≥ maxRunLen ∨ runlen > remaining))
    (invalidData "Non-canonical or invalid RLE run length in LigeroProof")

/-- Read one element of an opened column, in a run of the given class. -/
def readReqElt (subfieldRun : Bool) : Reader IoError E :=
  if subfieldRun then readSubfieldElt sf
  else do
    let elt ← readEltField f
    liftM (check (sf.contains elt = false)
      (invalidData "Non-canonical field encoding of subfield element in LigeroProof"))
    pure elt

/-- Read the opened columns. -/
def readReq (totalElts : Nat) : Reader IoError (List E) :=
  readRuns readSize4bytes admitReqRun (fun flag n => readMany (readReqElt f sf flag) n)
    (totalElts + 1) false true totalElts

/-- Read a proof of the given geometry. -/
def LigeroProof.read (geom : LigeroGeometry) : Reader IoError (LigeroProof E) := do
  let yLdt ← readVecField f geom.block
  let yDot ← readVecField f geom.dblock
  let yQuad0 ← readVecField f geom.r
  let last ← liftM (checkedSub geom.dblock geom.block : Exec IoError Nat)
  let yQuad2 ← readVecField f last
  let nonce ← readNonces geom.nreq
  let req ← readReq f sf (geom.nreq * geom.nrow)
  let pathLen ← readSize4bytes
  liftM (check (pathLen ≤ geom.nreq * geom.mcPathlen)
    (invalidData "Invalid Merkle path size in LigeroProof"))
  let path ← readMany readDigest pathLen
  pure ⟨yLdt, yDot, yQuad0, yQuad2, req, ⟨nonce, path⟩⟩

end Model

variable {f : SerializableField E} {sf : Subfield E}

/-! ### The opened columns -/

theorem admitReqRun_eq_ok {first : Bool} {remaining n : Nat} :
    admitReqRun first remaining n = .ok () ↔
      n ≤ remaining ∧ (n = 0 → first = true) ∧ n < maxRunLen := by
  rw [admitReqRun, check_eq_ok]
  cases first <;> simp <;> omega

theorem reads_reqElt (field : LawfulField f) (subfield : LawfulSubfield sf) {flag : Bool} {x : E}
    (member : sf.contains x = flag) : Reads (readReqElt f sf flag) (runElt f sf flag x) x := by
  cases flag with
  | true => exact reads_subfieldElt subfield member
  | false =>
    refine (reads_eltField field x).checked ?_
    exact Reads.guarded (Reads.lift (check_of member)) (Reads.pure x)

theorem canonical_reqElt (field : LawfulField f) (subfield : LawfulSubfield sf) (flag : Bool) :
    Canonical (readReqElt f sf flag) (fun x => sf.contains x = flag) (runElt f sf flag) := by
  cases flag with
  | true => exact canonical_subfieldElt subfield
  | false =>
    intro bytes x rest ran
    obtain ⟨elt, afterElt, read, ran⟩ := reader_bind_eq_ok.mp ran
    obtain ⟨_, afterCheck, checked, ran⟩ := reader_bind_eq_ok.mp ran
    obtain ⟨rfl, rfl⟩ := reader_pure_eq_ok.mp ran
    obtain ⟨outside, rfl⟩ := reader_lift_eq_ok.mp checked
    exact ⟨check_eq_ok.mp outside, (canonical_eltField field read).2⟩

variable {bytes : Bytes}

theorem reads_req (field : LawfulField f) (subfield : LawfulSubfield sf) {req : List E}
    (short : RunsBelow sf maxRunLen req) (written : writeEltRuns f sf req = .ok bytes) :
    Reads (readReq f sf req.length) bytes req := by
  refine reads_eltRuns ?_ (fun uniform => ?_) written
  · intro flag first run rest inside uniform emptyFirst
    refine admitReqRun_eq_ok.mpr ⟨by simp, fun none => ?_, ?_⟩
    · exact emptyFirst (List.length_eq_zero_iff.mp none)
    · exact short flag run (List.infix_append_left.trans inside.isInfix) uniform
  · exact reads_many fun x member => reads_reqElt field subfield (uniform x member)

theorem canonical_req (field : LawfulField f) (subfield : LawfulSubfield sf) {req : List E}
    {rest : Bytes} {total : Nat} (ran : (readReq f sf total).run bytes = .ok (req, rest)) :
    req.length = total ∧ ∃ w, writeEltRuns f sf req = .ok w ∧ bytes = w ++ rest :=
  canonical_eltRuns (fun admitted => ⟨(admitReqRun_eq_ok.mp admitted).1,
    (admitReqRun_eq_ok.mp admitted).2.1⟩)
    (fun flag n => canonical_many (canonical_reqElt field subfield flag) n) ran

/-! ### The whole proof -/

theorem reads_vecField (field : LawfulField f) {n : Nat} {row : List E} (size : row.length = n) :
    Reads (readVecField f n) (row.flatMap (writeEltField f)) row := by
  subst size
  exact reads_many fun e _ => reads_eltField field e

theorem canonical_vecField (field : LawfulField f) (n : Nat) :
    Canonical (readVecField f n) (fun row => row.length = n)
      (fun row => row.flatMap (writeEltField f)) := by
  intro bytes row rest ran
  obtain ⟨⟨size, _⟩, whole⟩ := canonical_many (canonical_eltField field) n ran
  exact ⟨size, whole⟩

variable {p : LigeroProof E} {geom : LigeroGeometry}

theorem LigeroProof.write_eq_ok :
    p.write f sf geom = .ok bytes ↔ p.Matches geom ∧ p.merkle.path.length < 2 ^ 32 ∧
      ∃ runs, writeEltRuns f sf p.req = .ok runs ∧
        bytes = p.yLdt.flatMap (writeEltField f) ++ (p.yDot.flatMap (writeEltField f) ++
          (p.yQuad0.flatMap (writeEltField f) ++ (p.yQuad2.flatMap (writeEltField f) ++
          (writeNonces p.merkle.nonce ++ (runs ++
            (leBytes 4 p.merkle.path.length ++ writeDigests p.merkle.path)))))) := by
  simp only [LigeroProof.write, bind_eq_ok, ensure_eq_ok, checkedSub_eq_ok, writeSize4bytes_eq_ok,
    pure_eq_ok, Except.ok.injEq]
  constructor
  · rintro ⟨_, yLdt, _, yDot, _, yQuad0, _, ⟨ordered, rfl⟩, _, yQuad2, _, nonce, _, req, runs,
      runsWritten, _, ⟨fits, rfl⟩, rfl⟩
    exact ⟨⟨ordered, yLdt, yDot, yQuad0, yQuad2, nonce, req⟩, fits, runs, runsWritten, rfl⟩
  · rintro ⟨⟨ordered, yLdt, yDot, yQuad0, yQuad2, nonce, req⟩, fits, runs, runsWritten, rfl⟩
    exact ⟨(), yLdt, (), yDot, (), yQuad0, _, ⟨ordered, rfl⟩, (), yQuad2, (), nonce, (), req, runs,
      runsWritten, _, ⟨fits, rfl⟩, rfl⟩

theorem reads_ligeroProof (field : LawfulField f) (subfield : LawfulSubfield sf)
    (short : RunsBelow sf maxRunLen p.req)
    (path : p.merkle.path.length ≤ geom.nreq * geom.mcPathlen)
    (written : p.write f sf geom = .ok bytes) : Reads (LigeroProof.read f sf geom) bytes p := by
  obtain ⟨shape, fits, runs, runsWritten, rfl⟩ := LigeroProof.write_eq_ok.mp written
  refine (reads_vecField field shape.yLdt).bind ?_
  refine (reads_vecField field shape.yDot).bind ?_
  refine (reads_vecField field shape.yQuad0).bind ?_
  refine Reads.guarded (Reads.lift (checkedSub_of_le shape.ordered)) ?_
  refine (reads_vecField field shape.yQuad2).bind ?_
  refine (shape.nonce ▸ reads_nonces p.merkle.nonce).bind ?_
  refine (shape.req ▸ reads_req field subfield short runsWritten).bind ?_
  refine (reads_size4bytes fits).bind ?_
  refine Reads.guarded (Reads.lift (check_of path)) ?_
  exact (reads_digests p.merkle.path).checked (Reads.pure p)

theorem canonical_ligeroProof (field : LawfulField f) (subfield : LawfulSubfield sf) {rest : Bytes}
    (ran : (LigeroProof.read f sf geom).run bytes = .ok (p, rest)) :
    ∃ w, p.write f sf geom = .ok w ∧ bytes = w ++ rest := by
  obtain ⟨yLdt, _, readLdt, ran⟩ := reader_bind_eq_ok.mp ran
  obtain ⟨yDot, _, readDot, ran⟩ := reader_bind_eq_ok.mp ran
  obtain ⟨yQuad0, _, readQuad0, ran⟩ := reader_bind_eq_ok.mp ran
  obtain ⟨last, _, subtracted, ran⟩ := reader_bind_eq_ok.mp ran
  obtain ⟨yQuad2, _, readQuad2, ran⟩ := reader_bind_eq_ok.mp ran
  obtain ⟨nonce, _, readNonce, ran⟩ := reader_bind_eq_ok.mp ran
  obtain ⟨req, _, readReq, ran⟩ := reader_bind_eq_ok.mp ran
  obtain ⟨pathLen, _, readLen, ran⟩ := reader_bind_eq_ok.mp ran
  obtain ⟨_, _, checked, ran⟩ := reader_bind_eq_ok.mp ran
  obtain ⟨path, _, readPath, ran⟩ := reader_bind_eq_ok.mp ran
  obtain ⟨rfl, rfl⟩ := reader_pure_eq_ok.mp ran
  obtain ⟨sizeLdt, rfl⟩ := canonical_vecField field _ readLdt
  obtain ⟨sizeDot, rfl⟩ := canonical_vecField field _ readDot
  obtain ⟨sizeQuad0, rfl⟩ := canonical_vecField field _ readQuad0
  obtain ⟨difference, rfl⟩ := reader_lift_eq_ok.mp subtracted
  obtain ⟨ordered, rfl⟩ := checkedSub_eq_ok.mp difference
  obtain ⟨sizeQuad2, rfl⟩ := canonical_vecField field _ readQuad2
  obtain ⟨sizeNonce, rfl⟩ := canonical_nonces _ readNonce
  obtain ⟨sizeReq, runs, runsWritten, rfl⟩ := canonical_req field subfield readReq
  obtain ⟨fits, rfl⟩ := canonical_size4bytes readLen
  obtain ⟨_, rfl⟩ := reader_lift_eq_ok.mp checked
  obtain ⟨rfl, rfl⟩ := canonical_digests _ readPath
  refine ⟨_, LigeroProof.write_eq_ok.mpr ⟨⟨ordered, sizeLdt, sizeDot, sizeQuad0, sizeQuad2,
    sizeNonce, sizeReq⟩, fits, runs, runsWritten, rfl⟩, ?_⟩
  simp only [List.append_assoc]

end Longfellow
