/-
**Ligero parameters and constraints** (`runtime/ligero/src/param.rs`,
`runtime/ligero/src/common.rs`).

A row of the tableau is a block of random and witness samples, extended to the values of its
polynomial on `blockEnc` points. Three rows of masks come first, then the witness rows, then the rows
of the product copies.

* `innerProductVector` — the coefficients of the batched equations.
-/

import Longfellow.Algebra.Interpolation
import Longfellow.Lib.Sparse
import Longfellow.Merkle.Heap
import Longfellow.Proto.Ligero

namespace Longfellow

open Lib

/-- A coefficient of a linear constraint: `k w` in equation `c`. -/
abbrev LigeroLinearConstraint (E : Type) := SparseTerm E

/-- A product of committed values: `w[x] * w[y] = w[z]`. -/
structure LigeroQuadraticConstraint where
  x : Nat
  y : Nat
  z : Nat
  deriving DecidableEq, Repr

/-- The constraint holds of a witness that has its three values. -/
def LigeroQuadraticConstraint.Holds {E : Type} [Mul E] (l : LigeroQuadraticConstraint)
    (witness : List E) : Prop :=
  ∃ a b, witness[l.x]? = some a ∧ witness[l.y]? = some b ∧ witness[l.z]? = some (a * b)

/-- The inverse rate, the number of opened columns and the width of a row. -/
structure LigeroConfig where
  rateinv : Nat
  nreq : Nat
  blockEnc : Nat
  deriving DecidableEq, Repr

/-- The dimensions of a proof and the layout of its rows. -/
structure LigeroParam where
  geom : LigeroGeometry
  nw : Nat
  nq : Nat
  w : Nat
  nwrow : Nat
  nqtriples : Nat
  nwqrow : Nat
  ildt : Nat
  idot : Nat
  iquad : Nat
  iw : Nat
  iq : Nat
  deriving DecidableEq, Repr

variable {E : Type}

/-- The layout of the rows behind given dimensions of a row. -/
def LigeroParam.layoutRows (nw nq : Nat) (config : LigeroConfig) (block : Nat) : LigeroParam :=
  let w := block - config.nreq
  let dblock := 2 * block - 1
  let nwrow := divCeil nw w
  let nqtriples := divCeil nq w
  let nwqrow := nwrow + 3 * nqtriples
  { geom :=
      { block := block
        dblock := dblock
        r := config.nreq
        blockEnc := config.blockEnc
        nrow := 3 + nwqrow
        nreq := config.nreq
        mcPathlen := merkleHeapLen (config.blockEnc - dblock) }
    nw := nw
    nq := nq
    w := w
    nwrow := nwrow
    nqtriples := nqtriples
    nwqrow := nwqrow
    ildt := 0
    idot := 1
    iquad := 2
    iw := 3
    iq := 3 + nwrow }

/-- The dimensions for `nw` witnesses and `nq` products, if the backend supports them. -/
def LigeroParam.tryNew (nw nq : Nat) (config : LigeroConfig)
    (domain : RangeInterpolatorFactory E) : Option LigeroParam := do
  let maxSize := 1 <<< 28
  guard ¬(config.blockEnc > maxSize ∨ config.rateinv > maxSize ∨
    config.blockEnc + 1 < 2 + config.rateinv)
  let block := (config.blockEnc + 1) / (2 + config.rateinv)
  guard (domain.canInterpolate ⟨0, block⟩ ⟨block, config.blockEnc⟩ = true)
  guard ¬(block < config.nreq)
  guard ¬(block - config.nreq < config.nreq)
  let dblock := 2 * block - 1
  guard ¬(config.blockEnc < dblock ∨ config.blockEnc - dblock < config.nreq)
  guard ¬(¬domain.canInterpolate ⟨0, dblock⟩ ⟨dblock, config.blockEnc⟩ ∨
    ¬domain.canInterpolate ⟨0, block⟩ ⟨block, dblock⟩ ∨
    ¬domain.canInterpolate ⟨0, block⟩ ⟨dblock, config.blockEnc⟩)
  pure (.layoutRows nw nq config block)

variable {ε : Type}

/-- The invariants of the dimensions. -/
def LigeroParam.sanity (param : LigeroParam) : Exec ε Unit := do
  ensure (param.geom.block ≥ param.geom.nreq) "assertion failed: self.geom.block >= self.geom.nreq"
  ensure (param.w = param.geom.block - param.geom.nreq) "assertion `left == right` failed"
  ensure (param.geom.dblock = 2 * param.geom.block - 1) "assertion `left == right` failed"
  ensure (param.geom.blockEnc ≥ param.geom.dblock)
    "assertion failed: self.geom.block_enc >= self.geom.dblock"
  ensure (param.iw = 3) "assertion `left == right` failed"
  ensure (param.iq = param.iw + param.nwrow) "assertion `left == right` failed"
  ensure (param.nwqrow = param.nwrow + 3 * param.nqtriples) "assertion `left == right` failed"
  ensure (param.geom.nrow = param.iw + param.nwqrow) "assertion `left == right` failed"
  ensure (param.geom.mcPathlen = merkleHeapLen (param.geom.blockEnc - param.geom.dblock))
    "assertion `left == right` failed"

/-- The dimensions, or a panic. -/
def LigeroParam.new (nw nq : Nat) (config : LigeroConfig) (domain : RangeInterpolatorFactory E) :
    Exec ε LigeroParam := do
  let param ← expect (LigeroParam.tryNew nw nq config domain) "invalid LigeroParam parameters"
  param.sanity
  pure param

/-! ### Admitted dimensions -/

/-- What holds of admitted dimensions. -/
structure LigeroParam.Admitted (param : LigeroParam) (domain : RangeInterpolatorFactory E) :
    Prop where
  w_pos : 0 < param.w
  block : param.geom.r + param.w = param.geom.block
  dblock : param.geom.dblock = 2 * param.geom.block - 1
  nreq : param.geom.nreq = param.geom.r
  mcPathlen : param.geom.mcPathlen = merkleHeapLen (param.geom.blockEnc - param.geom.dblock)
  oracle : param.geom.dblock + param.geom.nreq ≤ param.geom.blockEnc
  encodes : domain.canInterpolate ⟨0, param.geom.block⟩ ⟨param.geom.block, param.geom.blockEnc⟩
  response : domain.canInterpolate ⟨0, param.geom.dblock⟩ ⟨param.geom.dblock, param.geom.blockEnc⟩
  product : domain.canInterpolate ⟨0, param.geom.block⟩ ⟨param.geom.block, param.geom.dblock⟩
  opened : domain.canInterpolate ⟨0, param.geom.block⟩ ⟨param.geom.dblock, param.geom.blockEnc⟩
  nwrow : param.nwrow = divCeil param.nw param.w
  nqtriples : param.nqtriples = divCeil param.nq param.w
  nwqrow : param.nwqrow = param.nwrow + 3 * param.nqtriples
  ildt : param.ildt = 0
  idot : param.idot = 1
  iquad : param.iquad = 2
  iw : param.iw = 3
  iq : param.iq = 3 + param.nwrow
  nrow : param.geom.nrow = 3 + param.nwqrow

variable {domain : RangeInterpolatorFactory E}

theorem tryNew_admitted {nw nq : Nat} {config : LigeroConfig} {param : LigeroParam}
    (made : LigeroParam.tryNew nw nq config domain = some param) :
    param.Admitted domain ∧ param.nw = nw ∧ param.nq = nq ∧ param.geom.nreq = config.nreq := by
  unfold LigeroParam.tryNew at made
  simp only [Option.bind_eq_bind, Option.bind_eq_some_iff, Option.guard_eq_some', exists_const,
    Option.pure_def, Option.some.injEq] at made
  obtain ⟨wide, encodes, room, half, oracle, ranges, rfl⟩ := made
  simp only [not_or, not_not, not_lt] at wide room half oracle ranges
  set block := (config.blockEnc + 1) / (2 + config.rateinv)
  have pos : 1 ≤ block := (Nat.one_le_div_iff (by omega)).mpr wide.2.2
  refine ⟨⟨?_, Nat.add_sub_cancel' room, rfl, rfl, rfl, ?_, encodes, ranges.1, ranges.2.1, ranges.2.2,
    rfl, rfl, rfl, rfl, rfl, rfl, rfl, rfl, rfl⟩, rfl, rfl, rfl⟩
  · show 0 < block - config.nreq
    omega
  · show 2 * block - 1 + config.nreq ≤ config.blockEnc
    omega

theorem sanity_returns {param : LigeroParam} (admitted : param.Admitted domain) :
    (param.sanity : Exec ε Unit) = .ok () := by
  have block := admitted.block
  have oracle := admitted.oracle
  have nreq := admitted.nreq
  simp only [LigeroParam.sanity, admitted.dblock, admitted.iw, admitted.iq, admitted.nwqrow,
    admitted.nrow, admitted.mcPathlen, ensure_eq_ok, bind_eq_ok, ge_iff_le, exists_const, true_and,
    and_true]
  rw [admitted.dblock] at oracle
  omega

/-! ### Batched constraints -/

namespace Ligero

variable {ε E : Type} [CommRing E]

/-- Add a term of a linear equation, with the weight of the equation. -/
def addTerm (param : LigeroParam) (alphal a : List E) (term : LigeroLinearConstraint E) :
    Exec ε (List E) := do
  ensure (term.w < param.nw) "assertion failed: term.w < param.nw"
  ensure (term.c < alphal.length) "assertion failed: term.c < alphal.len()"
  let alpha ← getAt alphal term.c
  addAt a term.w (term.k * alpha)

/-- Add the equalities of the copies of product `iw` with their originals. -/
def addCopies (param : LigeroParam) (lqc : List LigeroQuadraticConstraint)
    (alphaq : List (E × E × E)) (a : List E) (iw : Nat) : Exec ε (List E) := do
  let axOffset := param.nwrow * param.w
  let ayOffset := axOffset + param.nqtriples * param.w
  let azOffset := ayOffset + param.nqtriples * param.w
  let l ← getAt lqc iw
  ensure (l.x < param.nw) "l.x out of bounds"
  ensure (l.y < param.nw) "l.y out of bounds"
  ensure (l.z < param.nw) "l.z out of bounds"
  let (rx, ry, rz) ← getAt alphaq iw
  let a ← addAt a (axOffset + iw) rx
  let a ← addAt a l.x (-rx)
  let a ← addAt a (ayOffset + iw) ry
  let a ← addAt a l.y (-ry)
  let a ← addAt a (azOffset + iw) rz
  addAt a l.z (-rz)

/-- The products in triple `i` of quadratic rows. -/
def tripleWidth (param : LigeroParam) (i : Nat) : Nat := min param.w (param.nq - i * param.w)

/-- The coefficients of the batched constraints. -/
def innerProductVector (param : LigeroParam) (llterm : List (LigeroLinearConstraint E))
    (alphal : List E) (lqc : List LigeroQuadraticConstraint) (alphaq : List (E × E × E)) :
    Exec ε (List E) := do
  let a ← llterm.foldlM (addTerm param alphal) (List.replicate (param.nwqrow * param.w) 0)
  (List.range param.nqtriples).foldlM (fun a i =>
    (List.range (tripleWidth param i)).foldlM (fun a j =>
      addCopies param lqc alphaq a (j + i * param.w)) a) a

end Ligero

end Longfellow
