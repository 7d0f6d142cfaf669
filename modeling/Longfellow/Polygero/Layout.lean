/-
**The Polygero parameters and their row layout** (`runtime/polygero/src/param.rs`,
`runtime/polygero/src/config.rs`).

The rows are the two arithmetic masks, the ordinary witness rows, the product triples, and the
primary mask. Construction validates the dimensions, the product indices and the ranges that the
backend interpolates between.

* `PolygeroParam.tryNew`, `PolygeroParam.Admitted` — the construction, and what holds of its results;
* `isProductOutput_iff` — the virtual rows are the third ones of the triples.
-/

import Longfellow.Algebra.Interpolation
import Longfellow.Proto.Polygero

namespace Longfellow

open Lib

variable {ε E : Type}

/-- Public dimensions of an invocation, selected by the caller. -/
structure PolygeroConfig where
  k : Nat
  s : Nat
  n : Nat
  t : Nat
  deriving DecidableEq, Repr

/-- Whether the backend has the capacity for every interpolation of the protocol. -/
def PolygeroConfig.canInterpolate (config : PolygeroConfig) (domain : RangeInterpolatorFactory E) :
    Bool :=
  match checkedAdd config.k config.n, checkedAdd config.k config.s, checkedMul config.k 2 with
  | some stop, some work, some double =>
    if config.k = 0 ∨ config.t ≥ config.k ∨ work > config.n ∨ double > config.n then false
    else
      let oracle : IndexRange := ⟨config.k, stop⟩
      let pairs : List (IndexRange × IndexRange) :=
        [(⟨0, config.k⟩, oracle), (⟨0, config.k + 1⟩, oracle), (⟨0, divCeil config.k 2⟩, oracle),
          (⟨0, config.k⟩, ⟨config.k, config.k + double⟩), (⟨config.k, double⟩, oracle),
          (⟨config.k, config.k + work⟩, oracle),
          (⟨config.k, config.k + config.s + 1⟩, ⟨config.k, config.k + work⟩),
          (⟨config.k, config.k + config.s + 1⟩, oracle),
          (⟨config.k, config.k + double⟩, ⟨0, stop⟩)]
      pairs.all fun (source, destination) => domain.canInterpolate source destination
  | _, _, _ => false

/-- Validated dimensions and the product layout. -/
structure PolygeroParam where
  geom : PolygeroGeometry
  products : List PolygeroProductConstraint
  deriving DecidableEq, Repr

namespace PolygeroParam

/-- The parameters for a witness and its products; an error is its message. -/
def tryNew (nw : Nat) (products : List PolygeroProductConstraint) (config : PolygeroConfig)
    (domain : RangeInterpolatorFactory E) : Exec String PolygeroParam := do
  let geom : PolygeroGeometry := ⟨nw, products.length, config.k, config.s, config.n, config.t⟩
  mapErr (fun e => raise e.message) geom.validate
  check (∀ p ∈ products, p.x < nw ∧ p.y < nw ∧ p.z < nw) "product index out of bounds"
  check (config.canInterpolate domain = true) "interpolation capacity exceeded"
  pure ⟨geom, products⟩

variable (param : PolygeroParam)

/-- The committed oracle is disjoint from the logical witness prefix. -/
def oracleRange : IndexRange := ⟨param.geom.k, param.geom.k + param.geom.n⟩

/-- The masks, the challenges and both responses start at the first point of the oracle. -/
def oraclePrefix (length : Nat) : IndexRange := ⟨param.geom.k, param.geom.k + length⟩

/-- The primary mask is the last row. -/
def fstarRow : Nat := param.geom.nrow - 1

def uRow : Nat := 0

def mRow : Nat := 1

/-- Ordinary rows and product triples follow the two arithmetic masks. -/
def dataStart : Nat := 2

/-- Every row but the last receives a challenge polynomial. -/
def batchedRows : IndexRange := ⟨0, param.fstarRow⟩

/-- Only the third row of each product triple is reconstructed from its inputs. -/
def isProductOutput (row : Nat) : Bool :=
  let start := dataStart + param.geom.ordinaryRows
  let stop := start + 3 * param.geom.productGroups
  decide ((start ≤ row ∧ row < stop) ∧ (row - start) % 3 = 2)

/-- What holds of constructed parameters. -/
structure Admitted : Prop where
  valid : param.geom.Valid
  count : param.products.length = param.geom.nq
  inside : ∀ p ∈ param.products, p.x < param.geom.nw ∧ p.y < param.geom.nw ∧ p.z < param.geom.nw

section TryNew

variable {nw : Nat} {products : List PolygeroProductConstraint} {config : PolygeroConfig}
  {domain : RangeInterpolatorFactory E} {param : PolygeroParam}

theorem tryNew_eq_ok : tryNew nw products config domain = .ok param ↔
    param = ⟨⟨nw, products.length, config.k, config.s, config.n, config.t⟩, products⟩ ∧
      param.Admitted ∧ config.canInterpolate domain = true := by
  constructor
  · intro made
    obtain ⟨_, validated, made⟩ := bind_eq_ok.mp made
    obtain ⟨_, inside, made⟩ := bind_eq_ok.mp made
    obtain ⟨_, capable, made⟩ := bind_eq_ok.mp made
    obtain rfl := Except.ok.inj made
    have valid := (mapErr_eq_ok fun _ => raise_ne_ok _ _).mp validated
    exact ⟨rfl, ⟨PolygeroGeometry.validate_eq_ok.mp valid, rfl, check_eq_ok.mp inside⟩,
      check_eq_ok.mp capable⟩
  · rintro ⟨rfl, ⟨valid, -, inside⟩, capable⟩
    have validated : PolygeroGeometry.validate ⟨nw, products.length, config.k, config.s, config.n,
        config.t⟩ = .ok () := PolygeroGeometry.validate_eq_ok.mpr valid
    rw [tryNew, validated, mapErr_ok, ok_bind, check_of inside, ok_bind, check_of capable, ok_bind,
      pure_eq_ok]

theorem tryNew_admitted (made : tryNew nw products config domain = .ok param) : param.Admitted :=
  (tryNew_eq_ok.mp made).2.1

theorem tryNew_eq (made : tryNew nw products config domain = .ok param) :
    param.geom.nw = nw ∧ param.products = products := by
  obtain ⟨rfl, -⟩ := tryNew_eq_ok.mp made
  exact ⟨rfl, rfl⟩

end TryNew

theorem isProductOutput_iff {row : Nat} : param.isProductOutput row = true ↔
    ∃ i < param.geom.productGroups, row = 2 + param.geom.ordinaryRows + (3 * i + 2) := by
  rw [isProductOutput, dataStart, decide_eq_true_eq]
  constructor
  · rintro ⟨⟨above, below⟩, third⟩
    exact ⟨(row - (2 + param.geom.ordinaryRows)) / 3, by omega, by omega⟩
  · rintro ⟨i, group, rfl⟩
    omega

end PolygeroParam

namespace PolygeroGeometry

variable {geom : PolygeroGeometry}

theorem Valid.ordinaryWidth_pos (valid : geom.Valid) : 0 < geom.ordinaryWidth := by
  have := valid.queries_lt
  unfold ordinaryWidth
  omega

theorem Valid.productWidth_pos (valid : geom.Valid) (some : 0 < geom.nq) :
    0 < geom.productWidth := by
  have := valid.products some
  unfold productWidth
  omega

end PolygeroGeometry

end Longfellow
