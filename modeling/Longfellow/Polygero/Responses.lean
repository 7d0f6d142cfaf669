/-
**The responses of Polygero and their checks** (`runtime/polygero/src/prover.rs`,
`runtime/polygero/src/verifier.rs`, `runtime/polygero/src/polynomials.rs`).

Both responses are weighted sums of the rows, column by column. The prover forms them on the first
columns of the oracle, and the verifier on the queried columns.

* `primaryResponse_eq`, `expectedPrimary_eq` — **both parties evaluate the batched polynomial** on
  the columns of the prover, and likewise `arithmeticResponse_eq`, `expectedArithmetic_eq`.
-/

import Longfellow.Polygero.Columns

set_option linter.unusedSectionVars false

namespace Longfellow.Polygero

open Lib PolygeroParam Polynomial Finset

variable {ε E : Type} {indices : List Nat} {row : Nat} {samples : List (List E)}

/-! ### The code -/

section Code

variable [CommRing E] (param : PolygeroParam) (domain : RangeInterpolatorFactory E)

/-- The monic polynomial that vanishes on the logical points, on the oracle. -/
def vanishing (geom : PolygeroGeometry) : Exec ε (List E) := do
  let x := domain.point geom.k
  let scale := (List.range geom.k).foldl (fun scale i => scale * (x - domain.point i)) 1
  let samples ← setAt (List.replicate (geom.k + 1) 0) geom.k scale
  domain.interpolateRange 0 samples ⟨geom.k, geom.k + geom.n⟩

/-- Zero on the logical mask slots and one on the witness slots, on the oracle. -/
def selector (geom : PolygeroGeometry) : Exec ε (List E) := do
  let selector ← withSlice (List.replicate geom.k 1) 0 geom.t fun masks =>
    pure (masks.map fun _ => 0)
  domain.interpolateRange 0 selector ⟨geom.k, geom.k + geom.n⟩

/-- Add a row, weighted by the values of its polynomial, on the first `size` columns. -/
def addWeighted (encoder : Encoder E) (size : Nat) (w : List (List E)) (samples : List (List E))
    (first : Nat) (response : List E) (row : Nat) : Exec ε (List E) := do
  let values ← getAt samples row
  let weights ← encoder.apply values
  let wRow ← getAt w (first + row)
  let wRow ← slice wRow 0 size
  Blas.vaxpy response weights wRow

/-- The batched rows and the primary mask, on the points of the primary response. -/
def primaryResponse (w batchingSamples : List (List E)) : Exec ε (List E) := do
  let g := param.geom
  let dimension := g.k + g.s
  let fstar ← getAt w param.fstarRow
  let h ← slice fstar 0 dimension
  let encoder ← makeRange domain (param.oraclePrefix (g.s + 1)) (param.oraclePrefix dimension)
  (List.range param.fstarRow).foldlM (addWeighted encoder dimension w batchingSamples 0) h

/-- The masked arithmetic response on its points. -/
def arithmeticResponse (w rows : List (List E)) : Exec ε (List E) := do
  let g := param.geom
  let size := 2 * g.k
  let encoder ← makeRange domain ⟨0, g.k⟩ (param.oraclePrefix size)
  let response ← (List.range rows.length).foldlM (addWeighted encoder size w rows dataStart)
    (List.replicate size 0)
  let values ← vanishing domain g
  let values ← slice values 0 size
  let u ← getAt w uRow
  let u ← slice u 0 size
  let response ← Blas.vaxpy response values u
  let values ← selector domain g
  let values ← slice values 0 size
  let m ← getAt w mRow
  let m ← slice m 0 size
  Blas.vaxpy response values m

/-- Add a restored row, weighted by the values of its polynomial at the queries. -/
def addQueried (encoder : Encoder E) (indices : List Nat) (opened : List E)
    (samples : List (List E)) (first : Nat) (expected : List E) (row : Nat) : Exec ε (List E) := do
  let values ← getAt samples row
  let extended ← encoder.apply values
  let weights ← Blas.gather indices extended
  let wRow ← rowOf param opened (first + row)
  Blas.vaxpy expected weights wRow

/-- What the primary response has to be at the queries. -/
def expectedPrimary (indices : List Nat) (batchingSamples : List (List E)) (opened : List E) :
    Exec ε (List E) := do
  let g := param.geom
  let expected ← rowOf param opened param.fstarRow
  let encoder ← makeRange domain (param.oraclePrefix (g.s + 1)) param.oracleRange
  (List.range param.fstarRow).foldlM (addQueried param encoder indices opened batchingSamples 0)
    expected

/-- Check the primary response. -/
def verifyPrimaryResponse [DecidableEq E] (h : List E) (indices : List Nat)
    (batchingSamples : List (List E)) (opened : List E) : Exec String Unit := do
  let expected ← expectedPrimary param domain indices batchingSamples opened
  let h ← domain.interpolateRange param.geom.k h param.oracleRange
  let actual ← Blas.gather indices h
  check (actual = expected) "Polygero primary response check failed"

/-- What the arithmetic response has to be at the queries. -/
def expectedArithmetic (indices : List Nat) (rows : List (List E)) (opened : List E) :
    Exec ε (List E) := do
  let g := param.geom
  let encoder ← makeRange domain ⟨0, g.k⟩ param.oracleRange
  let expected ← (List.range rows.length).foldlM
    (addQueried param encoder indices opened rows dataStart) (List.replicate indices.length 0)
  let values ← vanishing domain g
  let values ← Blas.gather indices values
  let u ← rowOf param opened uRow
  let expected ← Blas.vaxpy expected values u
  let values ← selector domain g
  let values ← Blas.gather indices values
  let m ← rowOf param opened mRow
  Blas.vaxpy expected values m

/-- Check the logical sum of the arithmetic response, and its values at the queries. -/
def verifyArithmetic [DecidableEq E] (z : List E) (indices : List Nat) (rows : List (List E))
    (opened : List E) (tau : E) : Exec String Unit := do
  let g := param.geom
  let z ← domain.interpolateRange g.k z ⟨0, g.k + g.n⟩
  let logical ← slice z g.t g.k
  check (Blas.dot1 logical + tau = 0) "Polygero global arithmetic sum failed"
  let oracle ← slice z g.k z.length
  let actual ← Blas.gather indices oracle
  let expected ← expectedArithmetic param domain indices rows opened
  check (actual = expected) "Polygero arithmetic check failed"

end Code

/-! ### Weighted sums of rows -/

section Sums

variable [CommRing E] {param : PolygeroParam} {domain : RangeInterpolatorFactory E}
  {w : List (List E)}

theorem vaxpy_map {α : Type} (l : List α) (a b c : α → E) :
    (Blas.vaxpy (l.map a) (l.map b) (l.map c) : Exec ε _) = .ok (l.map fun j => a j + b j * c j) := by
  rw [Blas.vaxpy, Blas.elementwise3_eq (by simp) (by simp)]
  congr 1
  induction l with
  | nil => rfl
  | cons j l ih => exact congrArg (List.cons _) ih

theorem eq_map_getD {xs : List E} {size : Nat} (length : xs.length = size) :
    xs = (List.range size).map fun j => xs.getD j 0 := by
  refine List.ext_getElem (by simp [length]) fun j bound _ => ?_
  rw [List.getElem_map, List.getElem_range, List.getD_eq_getElem _ _ bound]

theorem slice_row (committed : Committed param w) {size : Nat} (fits : size ≤ param.geom.n)
    (inside : row < param.geom.nrow) : ∃ values, (getAt w row : Exec ε _) = .ok values ∧
      (slice values 0 size : Exec ε _) =
        .ok ((List.range size).map fun j => (column w j).getD row 0) := by
  rw [← committed.count] at inside
  have width := committed.width w[row] (List.getElem_mem inside)
  refine ⟨w[row], getAt_of_lt inside, ?_⟩
  rw [slice_of_le (Nat.zero_le _) (by omega), List.drop_zero, Nat.sub_zero]
  refine congrArg Except.ok (List.ext_getElem (by simp; omega) fun j bound _ => ?_)
  have place : j < w[row].length := by simp at bound; omega
  have there : row < (column w j).length := by simpa [column] using inside
  rw [List.getElem_take, List.getElem_map, List.getElem_range, List.getD_eq_getElem _ _ there]
  simp only [column, List.getElem_map, List.getD_eq_getElem _ _ place]

/-- The values of the polynomial of a row on a destination. -/
def weights (domain : RangeInterpolatorFactory E) (source destination : IndexRange)
    (samples : List (List E)) (row : Nat) : List E :=
  (domain.plan source destination).apply (samples.getD row [])

section Loops

variable {source destination : IndexRange} {first : Nat}

theorem apply_eq (long : ∀ row ∈ samples, row.length = source.len)
    (inside : row < samples.length) :
    (Encoder.apply ⟨source, domain.plan source destination⟩ samples[row] : Exec ε _) =
      .ok (weights domain source destination samples row) := by
  rw [Encoder.apply, ensure_of (long _ (List.getElem_mem inside)), ok_bind, pure_eq_ok, weights,
    List.getD_eq_getElem _ _ inside]

theorem length_weights (sized : Sized domain)
    (can : domain.canInterpolate source destination = true)
    (long : ∀ row ∈ samples, row.length = source.len) (inside : row < samples.length) :
    (weights domain source destination samples row).length = destination.len := by
  rw [weights, List.getD_eq_getElem _ _ inside]
  exact sized.apply can _ (long _ (List.getElem_mem inside))

/-- **A weighted sum of rows** on the first columns. -/
theorem foldlM_addWeighted (sized : Sized domain)
    (can : domain.canInterpolate source destination = true) (committed : Committed param w)
    (fits : destination.len ≤ param.geom.n) (long : ∀ row ∈ samples, row.length = source.len)
    (rows : first + samples.length ≤ param.geom.nrow) (a : Nat → E) :
    ((List.range samples.length).foldlM (addWeighted ⟨source, domain.plan source destination⟩
      destination.len w samples first) ((List.range destination.len).map a) : Exec ε _) =
      .ok ((List.range destination.len).map fun j => a j + ∑ row ∈ range samples.length,
        (weights domain source destination samples row).getD j 0 *
          (column w j).getD (first + row) 0) := by
  obtain ⟨sum, ran, isSum⟩ := foldlM_range_returns (ε := ε)
    (f := addWeighted ⟨source, domain.plan source destination⟩ destination.len w samples first)
    (fun i sum => sum = (List.range destination.len).map fun j => a j + ∑ row ∈ range i,
      (weights domain source destination samples row).getD j 0 *
        (column w j).getD (first + row) 0) (n := samples.length)
    (s := (List.range destination.len).map a) (by simp) fun {i now} below isNow => by
      obtain ⟨values, isRow, sliced⟩ := slice_row (ε := ε) committed fits
        (show first + i < param.geom.nrow by omega)
      refine ⟨_, ?_, rfl⟩
      rw [addWeighted, getAt_of_lt below, ok_bind, apply_eq long below, ok_bind, isRow, ok_bind,
        sliced, ok_bind, isNow, eq_map_getD (length_weights sized can long below), vaxpy_map]
      simp only [sum_range_succ, add_assoc]
  rw [ran, isSum]

/-- **A weighted sum of restored rows** at the queries. -/
theorem foldlM_addQueried (sized : Sized domain)
    (can : domain.canInterpolate source param.oracleRange = true) (committed : Committed param w)
    (count : indices.length = param.geom.t) (inside : ∀ j ∈ indices, j < param.geom.n)
    (long : ∀ row ∈ samples, row.length = source.len)
    (rows : first + samples.length ≤ param.geom.nrow) (a : Nat → E) :
    ((List.range samples.length).foldlM (addQueried param ⟨source, domain.plan source
      param.oracleRange⟩ indices (queried w indices).flatten samples first) (indices.map a) :
      Exec ε _) =
      .ok (indices.map fun j => a j + ∑ row ∈ range samples.length,
        (weights domain source param.oracleRange samples row).getD j 0 *
          (column w j).getD (first + row) 0) := by
  obtain ⟨sum, ran, isSum⟩ := foldlM_range_returns (ε := ε)
    (f := addQueried param ⟨source, domain.plan source param.oracleRange⟩ indices
      (queried w indices).flatten samples first)
    (fun i sum => sum = indices.map fun j => a j + ∑ row ∈ range i,
      (weights domain source param.oracleRange samples row).getD j 0 *
        (column w j).getD (first + row) 0) (n := samples.length) (s := indices.map a) (by simp)
    fun {i now} below isNow => by
      have size := length_weights sized can long below
      rw [len_oracleRange] at size
      have gathered : (Blas.gather indices (weights domain source param.oracleRange samples i) :
          Exec ε _) = .ok (indices.map fun j =>
            (weights domain source param.oracleRange samples i).getD j 0) :=
        Blas.gather_map _ fun j member => by
          have bound : j < (weights domain source param.oracleRange samples i).length := by
            rw [size]
            exact inside j member
          rw [List.getElem?_eq_getElem bound, List.getD_eq_getElem _ _ bound]
      refine ⟨_, ?_, rfl⟩
      rw [addQueried, getAt_of_lt below, ok_bind, apply_eq long below, ok_bind, gathered, ok_bind,
        rowOf_eq committed count (by omega), ok_bind, isNow, vaxpy_map]
      simp only [sum_range_succ, add_assoc]
  rw [ran, isSum]

end Loops

/-! ### The two responses and their checks -/

/-- The batched polynomial at a column: the primary mask and the weighted rows before it. -/
def primaryAt (param : PolygeroParam) (weight : Nat → E) (column : List E) : E :=
  column.getD param.fstarRow 0 + ∑ row ∈ range param.fstarRow, weight row * column.getD row 0

/-- The arithmetic polynomial at a column: the weighted data rows and the two masks. -/
def arithmeticAt (dataRows : Nat) (weight : Nat → E) (vanishing selector : E) (column : List E) : E :=
  ∑ row ∈ range dataRows, weight row * column.getD (dataStart + row) 0 +
    vanishing * column.getD uRow 0 + selector * column.getD mRow 0

theorem primaryAt_congr {a b : Nat → E} (same : ∀ row < param.fstarRow, a row = b row)
    (column : List E) : primaryAt param a column = primaryAt param b column :=
  congrArg (_ + ·) (sum_congr rfl fun row inside => by rw [same row (mem_range.mp inside)])

theorem arithmeticAt_congr {dataRows : Nat} {a b : Nat → E} (same : ∀ row < dataRows, a row = b row)
    (vanishing selector : E) (column : List E) :
    arithmeticAt dataRows a vanishing selector column =
      arithmeticAt dataRows b vanishing selector column :=
  congrArg (· + _ + _) (sum_congr rfl fun row inside => by rw [same row (mem_range.mp inside)])

theorem fstarRow_lt : param.fstarRow < param.geom.nrow := by
  rw [fstarRow, PolygeroGeometry.nrow]
  omega

theorem dataStart_add_le {dataRows : Nat} (count : dataRows = param.geom.dataRows) :
    dataStart + dataRows ≤ param.geom.nrow ∧ uRow < param.geom.nrow ∧ mRow < param.geom.nrow := by
  rw [dataStart, uRow, mRow, PolygeroGeometry.nrow]
  omega

section Parties

variable (sized : Sized domain) (capacity : Capacity param.geom domain)
  (committed : Committed param w)
include sized capacity

theorem interpolateRange_returns {source : Nat} (can : domain.canInterpolate ⟨0, source⟩
      ⟨param.geom.k, param.geom.k + param.geom.n⟩ = true) {samples : List E}
    (size : samples.length = source) : ∃ values,
      (∀ {ε : Type}, (domain.interpolateRange 0 samples
        ⟨param.geom.k, param.geom.k + param.geom.n⟩ : Exec ε _) = .ok values) ∧
      values.length = param.geom.n := by
  refine ⟨_, fun {ε} => ?_, (sized.apply can samples (by simpa using size)).trans
    (Nat.add_sub_cancel_left ..)⟩
  rw [RangeInterpolatorFactory.interpolateRange, Nat.zero_add, size, makeRange_eq can, ok_bind,
    pure_eq_ok]

theorem vanishing_returns : ∃ values, (∀ {ε : Type}, (vanishing domain param.geom : Exec ε _) =
    .ok values) ∧ values.length = param.geom.n := by
  have long : ((List.replicate (param.geom.k + 1) 0).set param.geom.k ((List.range param.geom.k).foldl
      (fun scale i => scale * (domain.point param.geom.k - domain.point i)) 1)).length =
        param.geom.k + 1 := by simp
  obtain ⟨values, ran, size⟩ := interpolateRange_returns sized capacity capacity.vanishing long
  refine ⟨values, fun {ε} => ?_, size⟩
  rw [vanishing]
  simp only [setAt_of_lt (show param.geom.k < (List.replicate (param.geom.k + 1) (0 : E)).length by
    simp), ok_bind, ran]

/-- The second public polynomial, on the oracle. -/
theorem selector_returns (valid : param.geom.Valid) : ∃ values,
    (∀ {ε : Type}, (selector domain param.geom : Exec ε _) = .ok values) ∧
      values.length = param.geom.n := by
  have below := valid.queries_lt
  have placed : ∀ {ε : Type}, (withSlice (List.replicate param.geom.k 1) 0 param.geom.t
      (fun masks => pure (masks.map fun _ => 0)) : Exec ε (List E)) = .ok _ := fun {ε} =>
    withSlice_of_le (Nat.zero_le _) (by simpa using below.le) rfl
  have long : ((List.replicate param.geom.k (1 : E)).take 0 ++
      (((List.replicate param.geom.k (1 : E)).drop 0).take (param.geom.t - 0)).map (fun _ => 0) ++
      (List.replicate param.geom.k (1 : E)).drop param.geom.t).length = param.geom.k := by
    simp
    omega
  obtain ⟨values, ran, size⟩ := interpolateRange_returns sized capacity capacity.rows long
  exact ⟨values, fun {ε} => by rw [selector, placed, ok_bind, ran], size⟩

include committed

section Primary

variable (count : samples.length = param.fstarRow)
  (long : ∀ row ∈ samples, row.length = param.geom.s + 1)
include count long

/-- **The primary response** evaluates the batched polynomial on the first columns. -/
theorem primaryResponse_eq (valid : param.geom.Valid) :
    (primaryResponse param domain w samples : Exec ε _) =
      .ok ((List.range (param.geom.k + param.geom.s)).map fun j => primaryAt param
        (fun row => (weights domain (param.oraclePrefix (param.geom.s + 1))
          (param.oraclePrefix (param.geom.k + param.geom.s)) samples row).getD j 0) (column w j)) := by
  have last : param.fstarRow < param.geom.nrow := fstarRow_lt
  obtain ⟨fstar, isRow, sliced⟩ := slice_row (ε := ε) committed valid.primary last
  have can : domain.canInterpolate (param.oraclePrefix (param.geom.s + 1))
    (param.oraclePrefix (param.geom.k + param.geom.s)) = true := capacity.batchingPrefix
  have rows : 0 + samples.length ≤ param.geom.nrow := by omega
  have sum := foldlM_addWeighted (ε := ε) sized can committed (by simpa using valid.primary)
    (by simpa using long) rows fun j => (column w j).getD param.fstarRow 0
  simp only [len_oraclePrefix, count, Nat.zero_add] at sum
  simp only [primaryResponse, isRow, ok_bind, sliced, makeRange, makeRange_eq can, pure_eq_ok]
  exact sum

/-- **The check of the primary response** evaluates it on the queried columns. -/
theorem expectedPrimary_eq (queries : indices.length = param.geom.t)
    (inside : ∀ j ∈ indices, j < param.geom.n) :
    (expectedPrimary param domain indices samples (queried w indices).flatten : Exec ε _) =
      .ok (indices.map fun j => primaryAt param
        (fun row => (weights domain (param.oraclePrefix (param.geom.s + 1)) param.oracleRange samples
          row).getD j 0) (column w j)) := by
  have last : param.fstarRow < param.geom.nrow := fstarRow_lt
  have can : domain.canInterpolate (param.oraclePrefix (param.geom.s + 1)) param.oracleRange = true :=
    capacity.batching
  have rows : 0 + samples.length ≤ param.geom.nrow := by omega
  have sum := foldlM_addQueried (ε := ε) sized can committed queries inside (by simpa using long) rows
    fun j => (column w j).getD param.fstarRow 0
  simp only [count, Nat.zero_add] at sum
  simp only [expectedPrimary, rowOf_eq committed queries fstarRow_lt, ok_bind, makeRange,
    makeRange_eq can, pure_eq_ok]
  exact sum

end Primary

section Arithmetic

variable {rows : List (List E)} (count : rows.length = param.geom.dataRows)
  (long : ∀ row ∈ rows, row.length = param.geom.k) {vs ss : List E}
  (isV : ∀ {ε : Type}, (vanishing domain param.geom : Exec ε _) = .ok vs)
  (isS : ∀ {ε : Type}, (selector domain param.geom : Exec ε _) = .ok ss)
  (sizeV : vs.length = param.geom.n) (sizeS : ss.length = param.geom.n)
include count long isV isS sizeV sizeS

/-- **The arithmetic response** evaluates the arithmetic polynomial on the first columns. -/
theorem arithmeticResponse_eq (valid : param.geom.Valid) :
    (arithmeticResponse param domain w rows : Exec ε _) =
      .ok ((List.range (2 * param.geom.k)).map fun j => arithmeticAt param.geom.dataRows
        (fun row => (weights domain ⟨0, param.geom.k⟩ (param.oraclePrefix (2 * param.geom.k)) rows
          row).getD j 0) (vs.getD j 0) (ss.getD j 0) (column w j)) := by
  obtain ⟨data, inU, inM⟩ := dataStart_add_le count
  obtain ⟨u, isU, slicedU⟩ := slice_row (ε := ε) committed valid.arithmetic inU
  obtain ⟨m, isM, slicedM⟩ := slice_row (ε := ε) committed valid.arithmetic inM
  have first : ∀ {values : List E}, values.length = param.geom.n →
      (slice values 0 (2 * param.geom.k) : Exec ε _) =
        .ok ((List.range (2 * param.geom.k)).map fun j => values.getD j 0) := by
    intro values size
    have wide := valid.arithmetic
    have shorter : (values.take (2 * param.geom.k)).length = 2 * param.geom.k := by
      rw [List.length_take]
      omega
    rw [slice_of_le (Nat.zero_le _) (by omega), List.drop_zero, Nat.sub_zero, eq_map_getD shorter]
    refine congrArg Except.ok (List.map_congr_left fun j member => ?_)
    have below := List.mem_range.mp member
    rw [List.getD_eq_getElem?_getD, List.getElem?_take_of_lt below, ← List.getD_eq_getElem?_getD]
  have can : domain.canInterpolate ⟨0, param.geom.k⟩ (param.oraclePrefix (2 * param.geom.k)) = true :=
    capacity.constraint
  have sum := foldlM_addWeighted (ε := ε) sized can committed (by simpa using valid.arithmetic)
    (by simpa using long) data fun _ => 0
  simp only [len_oraclePrefix, count, List.map_const', List.length_range, zero_add] at sum
  simp only [arithmeticResponse, makeRange, makeRange_eq can, ok_bind, pure_eq_ok, sum, isV,
    first sizeV, isU, slicedU, vaxpy_map, isS, first sizeS, isM, slicedM, arithmeticAt, count]

/-- **The check of the arithmetic response** evaluates it on the queried columns. -/
theorem expectedArithmetic_eq (queries : indices.length = param.geom.t)
    (inside : ∀ j ∈ indices, j < param.geom.n) :
    (expectedArithmetic param domain indices rows (queried w indices).flatten : Exec ε _) =
      .ok (indices.map fun j => arithmeticAt param.geom.dataRows
        (fun row => (weights domain ⟨0, param.geom.k⟩ param.oracleRange rows row).getD j 0)
        (vs.getD j 0) (ss.getD j 0) (column w j)) := by
  obtain ⟨data, inU, inM⟩ := dataStart_add_le count
  have gathered : ∀ {values : List E}, values.length = param.geom.n →
      (Blas.gather indices values : Exec ε _) = .ok (indices.map fun j => values.getD j 0) :=
    fun {values} size => Blas.gather_map _ fun j member => by
      have bound : j < values.length := by
        rw [size]
        exact inside j member
      rw [List.getElem?_eq_getElem bound, List.getD_eq_getElem _ _ bound]
  have can : domain.canInterpolate ⟨0, param.geom.k⟩ param.oracleRange = true := capacity.rows
  have sum := foldlM_addQueried (ε := ε) sized can committed queries inside (by simpa using long) data
    fun _ => 0
  simp only [count, List.map_const', zero_add] at sum
  simp only [expectedArithmetic, makeRange, makeRange_eq can, ok_bind, pure_eq_ok, sum, isV,
    gathered sizeV, rowOf_eq committed queries inU, vaxpy_map, isS, gathered sizeS,
    rowOf_eq committed queries inM, arithmeticAt, count]

end Arithmetic

end Parties

end Sums

/-! ### The polynomials of the responses -/

section Polynomials

variable {F : Type} [Field F] {sf : Subfield F} {param : PolygeroParam}
  {domain : RangeInterpolatorFactory F} {source destination : IndexRange}

section

variable (exact : domain.Exact sf) (can : domain.canInterpolate source destination = true)
include exact can

theorem DistinctOn_of_exact :
    DistinctOn domain.point source.start source.len :=
  (exact.distinct can).mono fun j inside => by
    have := exact.ordered can
    simp only [IndexRange.len, Set.mem_ofPred_eq] at inside ⊢
    omega

theorem exists_polynomial {samples : List F} (size : samples.length = source.len) :
    ∃ p ∈ degreeLT F source.len, evalsAt domain.point source.cols p = samples :=
  exists_evalsAt (DistinctOn_of_exact exact can) size

end

/-- The polynomials of the rows of a matrix of samples. -/
def Interpolates (domain : RangeInterpolatorFactory F) (source : IndexRange)
    (samples : List (List F)) (p : Nat → F[X]) : Prop :=
  ∀ row < samples.length, p row ∈ degreeLT F source.len ∧
    evalsAt domain.point source.cols (p row) = samples.getD row []

theorem exists_interpolates (exact : domain.Exact sf)
    (can : domain.canInterpolate source destination = true) {samples : List (List F)}
    (long : ∀ row ∈ samples, row.length = source.len) :
    ∃ p, Interpolates domain source samples p := by
  have each : ∀ row, ∃ p : F[X], row < samples.length → p ∈ degreeLT F source.len ∧
      evalsAt domain.point source.cols p = samples.getD row [] := by
    intro row
    by_cases inside : row < samples.length
    · obtain ⟨p, low, values⟩ := exists_polynomial exact can (long _ (List.getElem_mem inside))
      exact ⟨p, fun _ => ⟨low, by rw [values, List.getD_eq_getElem _ _ inside]⟩⟩
    · exact ⟨0, fun below => absurd below inside⟩
  choose p values using each
  exact ⟨p, values⟩

theorem lagrange_sized {point : Nat → F} {capacity : Nat} : Sized (lagrange point capacity) where
  apply _ _ _ := by simp [lagrange, IndexRange.cols]
  applySubfield _ _ _ := by simp [lagrange, IndexRange.cols]

theorem getD_evalsAt {j : Nat} (inside : j < destination.len) (p : F[X]) :
    (evalsAt domain.point destination.cols p).getD j 0 =
      p.eval (domain.point (destination.start + j)) := by
  have found : destination.cols[j]? = some (destination.start + j) := by
    rw [IndexRange.cols, List.getElem?_range' inside, Nat.one_mul]
  rw [List.getD_eq_getElem?_getD, getElem?_evalsAt found, Option.getD_some]

theorem weights_eq (exact : domain.Exact sf) (can : domain.canInterpolate source destination = true)
    {samples : List (List F)} {p : Nat → F[X]} (interpolates : Interpolates domain source samples p)
    (inside : row < samples.length) {j : Nat} (column : j < destination.len) :
    (weights domain source destination samples row).getD j 0 =
      (p row).eval (domain.point (destination.start + j)) := by
  obtain ⟨low, values⟩ := interpolates row inside
  rw [weights, ← values, exact.exact can _ low, getD_evalsAt column]

/-- The monic polynomial that vanishes on the logical points. -/
noncomputable def vanishingPolynomial (domain : RangeInterpolatorFactory F) (k : Nat) : F[X] :=
  ∏ i ∈ range k, (X - C (domain.point i))

theorem eval_vanishingPolynomial (k : Nat) (x : F) :
    (vanishingPolynomial domain k).eval x =
      (List.range k).foldl (fun scale i => scale * (x - domain.point i)) 1 := by
  rw [vanishingPolynomial, eval_prod]
  induction k with
  | zero => rfl
  | succ k ih =>
    rw [prod_range_succ, ih, List.range_succ, List.foldl_append]
    simp

theorem vanishing_eq (exact : domain.Exact sf) (capacity : Capacity param.geom domain) :
    (vanishing domain param.geom : Exec ε _) =
      .ok (evalsAt domain.point param.oracleRange.cols
        (vanishingPolynomial domain param.geom.k)) := by
  have low : vanishingPolynomial domain param.geom.k ∈
      degreeLT F (⟨0, param.geom.k + 1⟩ : IndexRange).len := by
    rw [mem_degreeLT, vanishingPolynomial, degree_prod]
    simp [IndexRange.len]
    exact_mod_cast Nat.lt_succ_self _
  have values : ((List.replicate (param.geom.k + 1) 0).set param.geom.k
      ((List.range param.geom.k).foldl
        (fun scale i => scale * (domain.point param.geom.k - domain.point i)) 1)) =
      evalsAt domain.point (⟨0, param.geom.k + 1⟩ : IndexRange).cols
        (vanishingPolynomial domain param.geom.k) := by
    rw [← eval_vanishingPolynomial]
    refine List.ext_getElem (by simp [IndexRange.cols, IndexRange.len]) fun j bound _ => ?_
    have inside : j < param.geom.k + 1 := by simpa using bound
    simp only [evalsAt, IndexRange.cols, IndexRange.len, List.getElem_map, List.getElem_range',
      List.getElem_set, List.getElem_replicate, Nat.one_mul, Nat.zero_add]
    by_cases last : param.geom.k = j
    · rw [if_pos last, ← last]
    · rw [if_neg last, vanishingPolynomial, eval_prod,
        prod_eq_zero (i := j) (mem_range.mpr (by omega)) (by simp)]
  have can := capacity.vanishing
  have extended := exact.exact can _ low
  rw [vanishing]
  simp only [setAt_of_lt (show param.geom.k < (List.replicate (param.geom.k + 1) (0 : F)).length by
    simp), ok_bind, values]
  have size : (evalsAt domain.point (⟨0, param.geom.k + 1⟩ : IndexRange).cols
      (vanishingPolynomial domain param.geom.k)).length = param.geom.k + 1 := by
    simp [IndexRange.cols, IndexRange.len]
  rw [RangeInterpolatorFactory.interpolateRange, size, Nat.zero_add, makeRange_eq can, ok_bind,
    pure_eq_ok, extended, oracleRange]

/-- The selector as a polynomial: zero on the mask slots and one on the witness slots. -/
def Selects (domain : RangeInterpolatorFactory F) (geom : PolygeroGeometry) (p : F[X]) : Prop :=
  p ∈ degreeLT F geom.k ∧ ∀ i < geom.k, p.eval (domain.point i) = if i < geom.t then 0 else 1

theorem selector_eq (exact : domain.Exact sf) (capacity : Capacity param.geom domain)
    (valid : param.geom.Valid) : ∃ p, Selects domain param.geom p ∧
      ∀ {ε : Type}, (selector domain param.geom : Exec ε _) =
        .ok (evalsAt domain.point param.oracleRange.cols p) := by
  have below := valid.queries_lt
  have can := capacity.rows
  obtain ⟨samples, placed, size, entries⟩ : ∃ samples : List F,
      (∀ {ε : Type}, (withSlice (List.replicate param.geom.k 1) 0 param.geom.t
        (fun masks => pure (masks.map fun _ => 0)) : Exec ε (List F)) = .ok samples) ∧
      samples.length = param.geom.k ∧
      ∀ i < param.geom.k, samples.getD i 0 = if i < param.geom.t then 0 else 1 := by
    refine ⟨_, fun {ε} => withSlice_of_le (Nat.zero_le _) (by simpa using below.le) rfl, by simp; omega,
      fun i inside => ?_⟩
    have zeros : (((List.replicate param.geom.k (1 : F)).drop 0).take (param.geom.t - 0)).map
        (fun _ => (0 : F)) = List.replicate param.geom.t 0 := by
      simp
      omega
    rw [zeros, List.take_zero, List.nil_append]
    by_cases masked : i < param.geom.t
    · rw [List.getD_append _ _ _ _ (by simpa using masked), if_pos masked]
      simp
    · rw [List.getD_append_right _ _ _ _ (by simpa using masked), if_neg masked,
        List.getD_eq_getElem _ _ (by simp; omega)]
      simp
  obtain ⟨p, low, values⟩ := exists_polynomial exact can
    (show samples.length = (⟨0, param.geom.k⟩ : IndexRange).len by simpa using size)
  refine ⟨p, ⟨by simpa using low, fun i inside => ?_⟩, fun {ε} => ?_⟩
  · rw [← entries i inside, ← values, getD_evalsAt (by simpa using inside), Nat.zero_add]
  · rw [selector, placed, ok_bind, RangeInterpolatorFactory.interpolateRange, size, Nat.zero_add,
      makeRange_eq can, ok_bind, pure_eq_ok, ← values, exact.exact can _ low, oracleRange]

/-- The batched polynomial at a column, from the polynomials of the challenges. -/
noncomputable def batchedAt (param : PolygeroParam) (domain : RangeInterpolatorFactory F)
    (b : Nat → F[X]) (w : List (List F)) (j : Nat) : F :=
  primaryAt param (fun row => (b row).eval (domain.point (param.geom.k + j))) (column w j)

/-- The masked arithmetic polynomial at a column, from the polynomials of the batched constraints
and of the selector. -/
noncomputable def maskedAt (param : PolygeroParam) (domain : RangeInterpolatorFactory F)
    (c : Nat → F[X]) (s : F[X]) (w : List (List F)) (j : Nat) : F :=
  let x := domain.point (param.geom.k + j)
  arithmeticAt param.geom.dataRows (fun row => (c row).eval x)
    ((vanishingPolynomial domain param.geom.k).eval x) (s.eval x) (column w j)

section Agree

variable {w : List (List F)} (exact : domain.Exact sf) (sized : Sized domain)
  (capacity : Capacity param.geom domain) (committed : Committed param w)
  (queries : indices.length = param.geom.t) (inside : ∀ j ∈ indices, j < param.geom.n)
  (valid : param.geom.Valid)
include exact sized capacity committed queries inside valid

/-- **Both parties evaluate the batched polynomial**, the prover on the first columns and the
verifier on the restored ones. -/
theorem primary_agree {samples : List (List F)} (count : samples.length = param.fstarRow)
    (long : ∀ row ∈ samples, row.length = param.geom.s + 1) :
    ∃ b, Interpolates domain (param.oraclePrefix (param.geom.s + 1)) samples b ∧
      (primaryResponse param domain w samples : Exec ε _) = .ok
        ((List.range (param.geom.k + param.geom.s)).map (batchedAt param domain b w)) ∧
      (expectedPrimary param domain indices samples (queried w indices).flatten : Exec ε _) = .ok
        (indices.map (batchedAt param domain b w)) := by
  have before : domain.canInterpolate (param.oraclePrefix (param.geom.s + 1))
    (param.oraclePrefix (param.geom.k + param.geom.s)) = true := capacity.batchingPrefix
  have whole : domain.canInterpolate (param.oraclePrefix (param.geom.s + 1)) param.oracleRange =
    true := capacity.batching
  obtain ⟨b, interpolates⟩ := exists_interpolates exact whole
    (show ∀ row ∈ samples, _ by simpa using long)
  refine ⟨b, interpolates, ?_, ?_⟩
  · rw [primaryResponse_eq sized capacity committed count long valid]
    refine congrArg Except.ok (List.map_congr_left fun j member => primaryAt_congr (fun row isRow => ?_) _)
    have column := List.mem_range.mp member
    exact weights_eq exact before interpolates (by omega) (by simpa using column)
  · rw [expectedPrimary_eq sized capacity committed count long queries inside]
    refine congrArg Except.ok (List.map_congr_left fun j member => primaryAt_congr (fun row isRow => ?_) _)
    exact weights_eq exact whole interpolates (by omega) (by simpa using inside j member)

/-- **Both parties evaluate the masked arithmetic polynomial.** -/
theorem arithmetic_agree {rows : List (List F)} (count : rows.length = param.geom.dataRows)
    (long : ∀ row ∈ rows, row.length = param.geom.k) :
    ∃ c s, Interpolates domain ⟨0, param.geom.k⟩ rows c ∧ Selects domain param.geom s ∧
      (arithmeticResponse param domain w rows : Exec ε _) = .ok
        ((List.range (2 * param.geom.k)).map (maskedAt param domain c s w)) ∧
      (expectedArithmetic param domain indices rows (queried w indices).flatten : Exec ε _) = .ok
        (indices.map (maskedAt param domain c s w)) := by
  have before : domain.canInterpolate ⟨0, param.geom.k⟩ (param.oraclePrefix (2 * param.geom.k)) =
    true := capacity.constraint
  have whole : domain.canInterpolate ⟨0, param.geom.k⟩ param.oracleRange = true := capacity.rows
  obtain ⟨c, interpolates⟩ := exists_interpolates exact whole
    (show ∀ row ∈ rows, _ by simpa using long)
  obtain ⟨s, selects, isS⟩ := selector_eq exact capacity valid
  have isV : ∀ {ε : Type}, (vanishing domain param.geom : Exec ε _) = _ := fun {ε} =>
    vanishing_eq exact capacity
  have sizeOf : ∀ p : F[X], (evalsAt domain.point param.oracleRange.cols p).length = param.geom.n :=
    fun p => by simp [IndexRange.cols]
  have entry : ∀ j < param.geom.n, ∀ p : F[X],
      (evalsAt domain.point param.oracleRange.cols p).getD j 0 =
        p.eval (domain.point (param.geom.k + j)) := fun j below p => by
    rw [getD_evalsAt (by simpa using below), oracleRange]
  refine ⟨c, s, interpolates, selects, ?_, ?_⟩
  · rw [arithmeticResponse_eq sized capacity committed count long isV isS (sizeOf _) (sizeOf _) valid]
    refine congrArg Except.ok (List.map_congr_left fun j member => ?_)
    have column := List.mem_range.mp member
    have below : j < param.geom.n := column.trans_le valid.arithmetic
    rw [entry j below, entry j below]
    refine arithmeticAt_congr (fun row isRow => ?_) _ _ _
    exact weights_eq exact before interpolates (by omega) (by simpa using column)
  · rw [expectedArithmetic_eq sized capacity committed count long isV isS (sizeOf _) (sizeOf _)
      queries inside]
    refine congrArg Except.ok (List.map_congr_left fun j member => ?_)
    have below := inside j member
    rw [entry j below, entry j below]
    refine arithmeticAt_congr (fun row isRow => ?_) _ _ _
    exact weights_eq exact whole interpolates (by omega) (by simpa using below)

end Agree

/-! ### The restored columns -/

/-- What the verifier restores at the queries: the columns of the prover, with the rows in its order
and each virtual row the product of the two rows before it. -/
def Restores (param : PolygeroParam) (w : List (List F)) (indices : List Nat) (opened : List F) :
    Prop :=
  (∀ query, ∀ inside : query < indices.length,
    (openedColumn param opened query : Exec String _) = .ok (column w indices[query]) ∧
    (w.mapM (fun row => getAt row indices[query]) : Exec String _) =
      .ok (column w indices[query])) ∧
  (∀ row < param.geom.nrow, (rowOf param opened row : Exec String _) =
    .ok (indices.map fun j => (column w j).getD row 0)) ∧
  ∀ j ∈ indices, ∀ row, param.isProductOutput row = true → 2 ≤ row ∧ row < param.geom.nrow ∧
    (column w j).getD row 0 = (column w j).getD (row - 2) 0 * (column w j).getD (row - 1) 0

theorem restores_queried {w : List (List F)} (positive : 0 < param.geom.t)
    (committed : Committed param w) (queries : indices.length = param.geom.t)
    (inside : ∀ j ∈ indices, j < param.geom.n) :
    Restores param w indices (queried w indices).flatten := by
  refine ⟨fun query bound => ⟨openedColumn_eq positive queries bound,
    column_returns committed (inside _ (List.getElem_mem bound))⟩,
    fun row below => rowOf_eq committed queries below, fun j member row virtual => ?_⟩
  obtain ⟨two, below, product⟩ := queried_product committed inside virtual
  refine ⟨two, below, ?_⟩
  have count := committed.count
  rw [queried_column (by omega), queried_column (by omega), queried_column (by omega),
    List.zipWith_map, List.zipWith_self] at product
  exact List.map_inj_left.mp product j member

variable {ρ : Type}

/-- **The verifier restores the columns of the prover**, and both evaluate the same polynomials on
them. -/
theorem restored_columns {nw : Nat} {products : List PolygeroProductConstraint}
    {config : PolygeroConfig} (made : tryNew nw products config domain = .ok param)
    (exact : domain.Exact sf) (sized : Sized domain) (rng : RandomEngine ρ F) {witness : List F}
    (size : witness.length = nw) (subfieldBoundary : Nat) (r : ρ) :
    ∃ w r', (encodeRows param domain rng witness subfieldBoundary r : Exec String _) = .ok (w, r') ∧
      w.length = param.geom.nrow ∧ (∀ row ∈ w, row.length = param.geom.n) ∧
      ∀ indices : List Nat, indices.length = param.geom.t → (∀ j ∈ indices, j < param.geom.n) →
      ∃ received opened, (openRows param w indices : Exec String _) = .ok received ∧
        received.length = param.geom.transmittedRows * param.geom.t ∧
        (materializeRows param received : Exec String _) = .ok opened ∧
        Restores param w indices opened ∧
        (∀ samples : List (List F), samples.length = param.fstarRow →
          (∀ row ∈ samples, row.length = param.geom.s + 1) →
          ∃ b, Interpolates domain (param.oraclePrefix (param.geom.s + 1)) samples b ∧
            (primaryResponse param domain w samples : Exec String _) = .ok
              ((List.range (param.geom.k + param.geom.s)).map (batchedAt param domain b w)) ∧
            (expectedPrimary param domain indices samples opened : Exec String _) = .ok
              (indices.map (batchedAt param domain b w))) ∧
        ∀ rows : List (List F), rows.length = param.geom.dataRows →
          (∀ row ∈ rows, row.length = param.geom.k) →
          ∃ c s, Interpolates domain ⟨0, param.geom.k⟩ rows c ∧ Selects domain param.geom s ∧
            (arithmeticResponse param domain w rows : Exec String _) = .ok
              ((List.range (2 * param.geom.k)).map (maskedAt param domain c s w)) ∧
            (expectedArithmetic param domain indices rows opened : Exec String _) = .ok
              (indices.map (maskedAt param domain c s w)) := by
  have admitted := PolygeroParam.tryNew_admitted made
  have capacity := tryNew_capacity made
  have valid := admitted.valid
  obtain ⟨isNw, _⟩ := tryNew_eq made
  obtain ⟨w, r', ran, committed⟩ := encodeRows_returns (ε := String) rng sized capacity
    admitted (size.trans isNw.symm) subfieldBoundary r
  refine ⟨w, r', ran, committed.count, committed.width, fun indices queries inside => ?_⟩
  refine ⟨_, _, openRows_eq committed inside, ?_, materializeRows_eq valid.queries committed inside
    queries, restores_queried valid.queries committed queries inside,
    fun samples count long => primary_agree exact sized capacity committed queries inside valid count
      long,
    fun rows count long => arithmetic_agree exact sized capacity committed queries inside valid count
      long⟩
  rw [length_flatten_of_eq fun row member => ?_, length_transmitted]
  obtain ⟨i, isIn, rfl⟩ := List.mem_map.mp member
  have bound : i < (queried w indices).length := by
    rw [length_queried committed]
    simpa using (List.mem_range'_1.mp (List.mem_of_mem_filter isIn)).2
  rw [List.getD_eq_getElem _ _ bound, length_of_mem_queried (List.getElem_mem bound), queries]

/-- One witness value and one product, over the rational points. -/
theorem restored_columns_one :
    ∃ w r', (encodeRows ⟨⟨1, 1, 4, 1, 8, 1⟩, [⟨0, 0, 0⟩]⟩ (lagrange (fun j => (j : ℚ)) 12)
        (⟨fun len r => (List.replicate len 0, r), fun r => (1, r), fun r => (1, r)⟩ :
          RandomEngine Unit ℚ) [1] 0 () : Exec String _) = .ok (w, r') ∧ w.length = 7 := by
  have distinct : Set.InjOn (fun j : Nat => (j : ℚ)) {j | j < 12} :=
    Nat.cast_injective.injOn
  have sf : Subfield ℚ := ⟨fun _ => true, 0, fun _ => [], fun _ => .ok 0, fun _ => rfl⟩
  have made : tryNew 1 [⟨0, 0, 0⟩] ⟨4, 1, 8, 1⟩ (lagrange (fun j => (j : ℚ)) 12) =
    .ok ⟨⟨1, 1, 4, 1, 8, 1⟩, [⟨0, 0, 0⟩]⟩ := rfl
  obtain ⟨w, r', ran, count, _⟩ := restored_columns made (lagrange_exact distinct sf) lagrange_sized
    ⟨fun len r => (List.replicate len 0, r), fun r => (1, r), fun r => (1, r)⟩
    (show [(1 : ℚ)].length = 1 from rfl) 0 ()
  exact ⟨w, r', ran, count⟩

end Polynomials

end Longfellow.Polygero
