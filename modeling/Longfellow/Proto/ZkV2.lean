/-
**The v2 proof format** (`runtime/proto/src/zk_v2.rs`): a version marker, the commitment root, the
sumcheck proof and the Polygero proof, each with the lengths of its own geometry.

* `polygero_zk_codecs` — **both formats are bijections**: shaped proofs are written and read back,
  and whatever a reader accepts is the encoding of what it returns.
-/

import Longfellow.Proto.Polygero
import Longfellow.Proto.SumcheckV2

namespace Longfellow.ZkV2

open Lib SumcheckV2

/-- The geometries of the two parts. -/
structure ZkProofGeometry where
  scGeom : SumcheckProofGeometry
  comGeom : PolygeroGeometry
  deriving DecidableEq, Repr

/-- A commitment of the Polygero scheme. -/
structure PolygeroCommitment where
  root : Digest
  deriving DecidableEq, Repr

/-- A complete proof. -/
structure ZkProof (E : Type) where
  sumcheckProof : SumcheckProof E
  com : PolygeroCommitment
  comProof : PolygeroProof E
  deriving DecidableEq, Repr

variable {E : Type}

/-- The version marker `LFV2`. -/
def zkMagic : Bytes := [0x4C, 0x46, 0x56, 0x32]

section Model

variable (f : SerializableField E) (sf : Subfield E)

/-- The bytes of a proof. -/
def ZkProof.write (p : ZkProof E) (geom : ZkProofGeometry) : Exec IoError Bytes := do
  let sumcheck ← p.sumcheckProof.write f geom.scGeom
  let com ← p.comProof.write f sf geom.comGeom
  pure (zkMagic ++ (p.com.root.data.toList ++ (sumcheck ++ com)))

/-- Read a proof of the given geometry. -/
def ZkProof.read (geom : ZkProofGeometry) : Reader IoError (ZkProof E) := do
  readMagic zkMagic (invalidData "Longfellow v2 version marker")
  let root ← readBytes32
  let sumcheckProof ← SumcheckProof.read f geom.scGeom
  let comProof ← PolygeroProof.read f sf geom.comGeom
  pure ⟨sumcheckProof, ⟨⟨root⟩⟩, comProof⟩

end Model

variable {f : SerializableField E} {sf : Subfield E}

variable {p : ZkProof E} {geom : ZkProofGeometry} {bytes : Bytes}

theorem ZkProof.write_eq_ok :
    p.write f sf geom = .ok bytes ↔ ∃ sumcheck com, p.sumcheckProof.write f geom.scGeom =
      .ok sumcheck ∧ p.comProof.write f sf geom.comGeom = .ok com ∧
      bytes = zkMagic ++ (p.com.root.data.toList ++ (sumcheck ++ com)) := by
  simp only [ZkProof.write, bind_eq_ok, pure_eq_ok, Except.ok.injEq]
  constructor
  · rintro ⟨sumcheck, first, com, second, rfl⟩
    exact ⟨sumcheck, com, first, second, rfl⟩
  · rintro ⟨sumcheck, com, first, second, rfl⟩
    exact ⟨sumcheck, first, com, second, rfl⟩

theorem reads_zkProof (field : LawfulField f) (subfield : LawfulSubfield sf)
    (written : p.write f sf geom = .ok bytes) (machine : bytes.length < 2 ^ 64) :
    Reads (ZkProof.read f sf geom) bytes p := by
  obtain ⟨sumcheck, com, first, second, rfl⟩ := ZkProof.write_eq_ok.mp written
  simp only [List.length_append] at machine
  refine (reads_magic _ _).bind ?_
  refine (reads_bytes32 p.com.root.data).bind ?_
  refine (reads_sumcheckProof field first (by omega)).bind ?_
  exact (reads_polygeroProof field subfield second (by omega)).checked (Reads.pure p)

theorem canonical_zkProof (field : LawfulField f) (subfield : LawfulSubfield sf) {rest : Bytes}
    (ran : (ZkProof.read f sf geom).run bytes = .ok (p, rest)) :
    ∃ w, p.write f sf geom = .ok w ∧ bytes = w ++ rest := by
  obtain ⟨_, _, magic, ran⟩ := reader_bind_eq_ok.mp ran
  obtain ⟨root, _, readRoot, ran⟩ := reader_bind_eq_ok.mp ran
  obtain ⟨sumcheckProof, _, readSumcheck, ran⟩ := reader_bind_eq_ok.mp ran
  obtain ⟨comProof, _, readCom, ran⟩ := reader_bind_eq_ok.mp ran
  obtain ⟨rfl, rfl⟩ := reader_pure_eq_ok.mp ran
  obtain rfl := readMagic_eq_ok.mp magic
  obtain rfl := readBytes32_eq_ok.mp readRoot
  obtain ⟨sumcheck, first, rfl⟩ := canonical_sumcheckProof field readSumcheck
  obtain ⟨com, second, rfl⟩ := canonical_polygeroProof subfield readCom
  refine ⟨_, ZkProof.write_eq_ok.mpr ⟨sumcheck, com, first, second, rfl⟩, ?_⟩
  simp only [List.append_assoc]

/-- **The Polygero and v2 formats are bijections on their images.** For a valid geometry and valid
element widths, a proof of the geometry's shape is written; a written proof of machine size is read
back, whatever follows it; and whatever a reader accepts is the encoding of what it returns. -/
theorem polygero_zk_codecs (field : LawfulField f) (subfield : LawfulSubfield sf)
    (codecs : CodecsValid f sf) :
    (∀ (geom : PolygeroGeometry) (p : PolygeroProof E), p.Shaped geom →
      ∃ bytes, p.write f sf geom = .ok bytes ∧ (bytes.length < 2 ^ 64 →
        ∀ rest, (PolygeroProof.read f sf geom).run (bytes ++ rest) = .ok (p, rest))) ∧
    (∀ (geom : PolygeroGeometry) (bytes rest : Bytes) (p : PolygeroProof E),
      (PolygeroProof.read f sf geom).run bytes = .ok (p, rest) →
      ∃ w, p.write f sf geom = .ok w ∧ bytes = w ++ rest) ∧
    (∀ (geom : ZkProofGeometry) (p : ZkProof E), p.sumcheckProof.Shaped geom.scGeom →
      p.comProof.Shaped geom.comGeom →
      ∃ bytes, p.write f sf geom = .ok bytes ∧ (bytes.length < 2 ^ 64 →
        ∀ rest, (ZkProof.read f sf geom).run (bytes ++ rest) = .ok (p, rest))) ∧
    ∀ (geom : ZkProofGeometry) (bytes rest : Bytes) (p : ZkProof E),
      (ZkProof.read f sf geom).run bytes = .ok (p, rest) →
      ∃ w, p.write f sf geom = .ok w ∧ bytes = w ++ rest := by
  refine ⟨fun geom p shaped => ?_, fun geom bytes rest p ran => ?_, fun geom p first second => ?_,
    fun geom bytes rest p ran => ?_⟩
  · obtain ⟨bytes, written⟩ := PolygeroProof.write_returns shaped codecs
    exact ⟨bytes, written, fun machine => reads_polygeroProof field subfield written machine⟩
  · exact canonical_polygeroProof subfield ran
  · obtain ⟨com, comWritten⟩ := PolygeroProof.write_returns second codecs
    have written := ZkProof.write_eq_ok.mpr
      ⟨_, com, SumcheckProof.write_eq_ok.mpr ⟨first, rfl⟩, comWritten, rfl⟩
    exact ⟨_, written, fun machine => reads_zkProof field subfield written machine⟩
  · exact canonical_zkProof field subfield ran

/-- A proof of the smallest geometry over the field of three elements, in a whole v2 proof. -/
theorem polygero_zk_codecs_small :
    let f := primeField 3 1
    let geom : ZkProofGeometry := ⟨⟨[1]⟩, ⟨0, 0, 2, 0, 4, 1⟩⟩
    let p : ZkProof (Fin 3) := ⟨⟨[⟨[⟨(1, 2)⟩], (0, 1)⟩]⟩, ⟨default⟩,
      ⟨[1, 2], [0, 1, 2, 0], [1, 0, 2], ⟨[⟨Vector.replicate 32 7⟩], [default, default]⟩⟩⟩
    ∃ bytes, p.write f (wholeSubfield f) geom = .ok bytes ∧
      ∀ rest, (ZkProof.read f (wholeSubfield f) geom).run (bytes ++ rest) = .ok (p, rest) := by
  intro f geom p
  have field : LawfulField f := lawful_primeField (by decide)
  have valid : geom.comGeom.Valid :=
    ⟨by decide, by decide, by decide, by decide, by decide, by decide, by decide⟩
  have short : p.comProof.opening.path.length ≤ geom.comGeom.maxPathLen := by
    have height : Nat.clog 2 (2 ^ 2) = 2 := Nat.clog_pow 2 2 (by decide)
    show 2 ≤ 1 * (Nat.clog 2 (2 ^ 2) + 1)
    omega
  obtain ⟨bytes, written, reads⟩ :=
    (polygero_zk_codecs field (lawful_wholeSubfield field) ⟨by decide, by decide⟩).2.2.1 geom p
      ⟨List.Forall₂.cons rfl List.Forall₂.nil, 4, rfl⟩ ⟨valid, rfl, rfl, by decide, rfl, short⟩
  refine ⟨bytes, written, reads ?_⟩
  obtain ⟨sumcheck, com, first, second, rfl⟩ := ZkProof.write_eq_ok.mp written
  obtain ⟨_, _, runs, runsWritten, rfl⟩ := PolygeroProof.write_eq_ok.mp second
  obtain ⟨_, rfl⟩ := SumcheckProof.write_eq_ok.mp first
  obtain rfl := Except.ok.inj (runsWritten.symm.trans (rfl : writeEltRuns f _ [1, 0, 2] = .ok _))
  decide +kernel

end Longfellow.ZkV2
