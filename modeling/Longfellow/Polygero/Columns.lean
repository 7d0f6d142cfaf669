/-
**Opened columns of the Polygero rows** (`runtime/polygero/src/prover.rs`,
`runtime/polygero/src/verifier.rs`).

The prover gathers the queried entries of every row but the virtual ones, row by row. The verifier
puts each virtual row back as the product of the two rows before it, and reads rows and columns off
the result.

* `materializeRows_eq` — **the verifier restores the queried entries of all rows**, in the order of
  the prover.
-/

import Longfellow.Polygero.Rows

set_option linter.unusedSectionVars false

namespace Longfellow.Polygero

open Lib PolygeroParam

variable {ε E : Type} [CommRing E] (param : PolygeroParam)

/-! ### Opening and restoring rows -/

/-- Gather the selected columns of a row that is transmitted. -/
def openRow (indices : List Nat) (w : List (List E)) (rows : List E) (row : Nat) :
    Exec ε (List E) :=
  if param.isProductOutput row then pure rows
  else do
    let values ← getAt w row
    let opened ← Blas.gather indices values
    pure (rows ++ opened)

/-- The selected columns of all rows that are transmitted. -/
def openRows (w : List (List E)) (indices : List Nat) : Exec ε (List E) :=
  (List.range w.length).foldlM (openRow param indices w) []

/-- Restore one row. The state is the rows so far and the rows of the proof that are left. -/
def materializeStep (state : List E × List (List E)) (row : Nat) :
    Exec ε (List E × List (List E)) :=
  if param.isProductOutput row then do
    let t := param.geom.t
    let start := state.1.length
    let lo ← checkedSub start (2 * t)
    let hi ← checkedSub start t
    let x ← slice state.1 lo hi
    let y ← slice state.1 hi start
    let z ← Blas.mul x y
    pure (state.1 ++ z, state.2)
  else
    match state.2 with
    | [] => abort "validated proof row count"
    | values :: received => pure (state.1 ++ values, received)

/-- Restore the full row order at the queries. -/
def materializeRows (received : List E) : Exec ε (List E) := do
  ensure (param.geom.t ≠ 0) "chunk size must be non-zero"
  let (rows, _) ← (List.range param.geom.nrow).foldlM (materializeStep param)
    ([], chunksExact param.geom.t received)
  pure rows

/-- The queried values of a row. -/
def rowOf (rows : List E) (row : Nat) : Exec ε (List E) :=
  slice rows (row * param.geom.t) ((row + 1) * param.geom.t)

/-- The values of all rows at a query. -/
def openedColumn (opened : List E) (query : Nat) : Exec ε (List E) := do
  ensure (param.geom.t ≠ 0) "chunk size must be non-zero"
  (chunksExact param.geom.t opened).mapM fun row => getAt row query

/-! ### What is transmitted -/

/-- The queried entries of all rows. -/
def queried (w : List (List E)) (indices : List Nat) : List (List E) :=
  w.map fun row => indices.map fun j => row.getD j 0

/-- The queried entries of the transmitted rows among `count` rows from `start` on. -/
def transmitted (w : List (List E)) (indices : List Nat) (start count : Nat) : List (List E) :=
  ((List.range' start count).filter fun row => !param.isProductOutput row).map fun row =>
    (queried w indices).getD row []

variable {param} {w : List (List E)} {indices : List Nat}

theorem length_queried (committed : Committed param w) :
    (queried w indices).length = param.geom.nrow := by
  rw [queried, List.length_map, committed.count]

variable {row : Nat}

theorem getD_queried (inside : row < w.length) :
    (queried w indices).getD row [] = indices.map fun j => (w.getD row []).getD j 0 := by
  have bound : row < (queried w indices).length := by simpa [queried] using inside
  rw [List.getD_eq_getElem _ _ bound, List.getD_eq_getElem _ _ inside]
  simp only [queried, List.getElem_map]

theorem openRows_eq (committed : Committed param w) (inside : ∀ j ∈ indices, j < param.geom.n) :
    (openRows param w indices : Exec ε _) =
      .ok (transmitted param w indices 0 param.geom.nrow).flatten := by
  obtain ⟨rows, ran, isRows⟩ := foldlM_range_returns (ε := ε) (f := openRow param indices w)
    (fun i rows => rows = (transmitted param w indices 0 i).flatten) (n := w.length) (s := [])
    (by simp [transmitted]) fun {i now} below isNow => by
      refine ⟨_, ?_, rfl⟩
      rw [openRow, transmitted, List.range'_concat, List.filter_append, List.map_append,
        List.flatten_append, Nat.zero_add, Nat.one_mul]
      by_cases virtual : param.isProductOutput i = true
      · rw [if_pos virtual, pure_eq_ok, isNow, transmitted]
        simp [virtual]
      · have width := committed.width w[i] (List.getElem_mem below)
        have gathered : (Blas.gather indices w[i] : Exec ε _) =
            .ok (indices.map fun j => w[i].getD j 0) :=
          Blas.gather_map _ fun j member => by
            have bound : j < w[i].length := by rw [width]; exact inside j member
            rw [List.getElem?_eq_getElem bound, List.getD_eq_getElem _ _ bound]
        have value : (queried w indices).getD i [] = indices.map fun j => w[i].getD j 0 := by
          rw [getD_queried below, List.getD_eq_getElem _ _ below]
        have kept : [i].filter (fun row => !param.isProductOutput row) = [i] := by simp [virtual]
        rw [if_neg virtual, getAt_of_lt below, ok_bind, gathered, ok_bind, pure_eq_ok, isNow,
          transmitted, kept, List.map_singleton, value, List.flatten_singleton]
  rw [openRows, ran, isRows, committed.count]

theorem length_transmitted :
    (transmitted param w indices 0 param.geom.nrow).length = param.geom.transmittedRows := by
  have one : ∀ row, param.isProductOutput row = decide (2 + param.geom.ordinaryRows ≤ row ∧
      row < 2 + param.geom.ordinaryRows + 3 * param.geom.productGroups ∧
      (row - (2 + param.geom.ordinaryRows)) % 3 = 2) := fun row => by
    simp only [isProductOutput, dataStart, and_assoc]
  have before : ((List.range' 0 (2 + param.geom.ordinaryRows)).filter fun row =>
      !param.isProductOutput row).length = 2 + param.geom.ordinaryRows := by
    rw [List.filter_eq_self.mpr, List.length_range']
    intro row member
    have := List.mem_range'_1.mp member
    simp only [one, Bool.not_eq_true', decide_eq_false_iff_not]
    omega
  have triples : ∀ groups ≤ param.geom.productGroups,
      ((List.range' (2 + param.geom.ordinaryRows) (3 * groups)).filter fun row =>
        !param.isProductOutput row).length = 2 * groups := by
    intro groups
    induction groups with
    | zero => simp
    | succ groups ih =>
      intro inside
      have next := ih (by omega)
      have split : List.range' (2 + param.geom.ordinaryRows) (3 * (groups + 1)) =
          List.range' (2 + param.geom.ordinaryRows) (3 * groups) ++
            [2 + param.geom.ordinaryRows + 3 * groups, 2 + param.geom.ordinaryRows + 3 * groups + 1,
              2 + param.geom.ordinaryRows + 3 * groups + 2] := by
        rw [show 3 * (groups + 1) = 3 * groups + 3 by omega, ← List.range'_append_1]
        rfl
      have x : param.isProductOutput (2 + param.geom.ordinaryRows + 3 * groups) = false := by
        rw [one, decide_eq_false_iff_not]
        omega
      have y : param.isProductOutput (2 + param.geom.ordinaryRows + 3 * groups + 1) = false := by
        rw [one, decide_eq_false_iff_not]
        omega
      have z : param.isProductOutput (2 + param.geom.ordinaryRows + 3 * groups + 2) = true := by
        rw [one, decide_eq_true_eq]
        omega
      rw [split, List.filter_append, List.length_append, next]
      simp [x, y, z]
      omega
  have last : param.isProductOutput
      (2 + param.geom.ordinaryRows + 3 * param.geom.productGroups) = false := by
    rw [one, decide_eq_false_iff_not]
    omega
  have split : List.range' 0 param.geom.nrow = List.range' 0 (2 + param.geom.ordinaryRows) ++
      List.range' (2 + param.geom.ordinaryRows) (3 * param.geom.productGroups) ++
      [2 + param.geom.ordinaryRows + 3 * param.geom.productGroups] := by
    have first := @List.range'_append_1 0 (2 + param.geom.ordinaryRows)
      (3 * param.geom.productGroups)
    rw [Nat.zero_add] at first
    have rows : param.geom.nrow =
        2 + param.geom.ordinaryRows + 3 * param.geom.productGroups + 1 := by
      rw [PolygeroGeometry.nrow, PolygeroGeometry.dataRows]
      omega
    rw [first, rows, List.range'_concat, Nat.zero_add, Nat.one_mul]
  rw [transmitted, List.length_map, split, List.filter_append, List.filter_append,
    List.length_append, List.length_append, before, triples _ le_rfl]
  simp only [List.filter_singleton, last, PolygeroGeometry.transmittedRows, PolygeroGeometry.nrow,
    PolygeroGeometry.dataRows]
  simp
  omega

theorem length_of_mem_queried {row : List E} (member : row ∈ queried w indices) :
    row.length = indices.length := by
  obtain ⟨values, _, rfl⟩ := List.mem_map.mp member
  exact List.length_map _

theorem queried_product (committed : Committed param w) (inside : ∀ j ∈ indices, j < param.geom.n)
    (virtual : param.isProductOutput row = true) : 2 ≤ row ∧ row < param.geom.nrow ∧
      (queried w indices).getD row [] =
        List.zipWith (· * ·) ((queried w indices).getD (row - 2) [])
          ((queried w indices).getD (row - 1) []) := by
  obtain ⟨i, group, isRow⟩ := param.isProductOutput_iff.mp virtual
  have below : row < param.geom.nrow := by
    rw [PolygeroGeometry.nrow, PolygeroGeometry.dataRows]
    omega
  refine ⟨by omega, below, ?_⟩
  have count := committed.count
  have size : ∀ r < w.length, (w.getD r []).length = param.geom.n := fun r bound => by
    rw [List.getD_eq_getElem _ _ bound]
    exact committed.width _ (List.getElem_mem bound)
  rw [getD_queried (by omega), getD_queried (by omega), getD_queried (by omega),
    committed.product row virtual, List.zipWith_map, List.zipWith_self]
  refine List.map_congr_left fun j member => ?_
  have bound := inside j member
  have boundX : j < (w.getD (row - 2) []).length := by rw [size _ (by omega)]; exact bound
  have boundY : j < (w.getD (row - 1) []).length := by rw [size _ (by omega)]; exact bound
  have boundZ : j < (List.zipWith (· * ·) (w.getD (row - 2) []) (w.getD (row - 1) [])).length := by
    rw [List.length_zipWith]
    omega
  rw [List.getD_eq_getElem _ _ boundX, List.getD_eq_getElem _ _ boundY,
    List.getD_eq_getElem _ _ boundZ, List.getElem_zipWith]

/-- **The rows of the proof, restored.** -/
theorem materializeRows_eq (positive : 0 < param.geom.t) (committed : Committed param w)
    (inside : ∀ j ∈ indices, j < param.geom.n) (count : indices.length = param.geom.t) :
    (materializeRows param (transmitted param w indices 0 param.geom.nrow).flatten : Exec ε _) =
      .ok (queried w indices).flatten := by
  have width : ∀ row ∈ queried w indices, row.length = param.geom.t := fun _ member =>
    (length_of_mem_queried member).trans count
  have rows : (queried w indices).length = param.geom.nrow := length_queried committed
  have sent : ∀ row ∈ transmitted param w indices 0 param.geom.nrow,
      row.length = param.geom.t := by
    intro row member
    obtain ⟨i, isIn, rfl⟩ := List.mem_map.mp member
    have bound : i < (queried w indices).length := by
      have := (List.mem_range'_1.mp (List.mem_of_mem_filter isIn)).2
      omega
    rw [List.getD_eq_getElem _ _ bound]
    exact width _ (List.getElem_mem bound)
  obtain ⟨state, ran, isState⟩ := foldlM_range_returns (ε := ε) (f := materializeStep param)
    (fun i state => state = (((queried w indices).take i).flatten,
      transmitted param w indices i (param.geom.nrow - i))) (n := param.geom.nrow)
    (s := ([], transmitted param w indices 0 param.geom.nrow)) (by simp)
    fun {i now} below isNow => by
      subst isNow
      have bound : i < (queried w indices).length := by omega
      refine ⟨_, ?_, rfl⟩
      have more : (queried w indices).take (i + 1) =
          (queried w indices).take i ++ [(queried w indices).getD i []] := by
        rw [List.take_add_one, List.getElem?_eq_getElem bound, List.getD_eq_getElem _ _ bound]
        rfl
      have left : List.range' i (param.geom.nrow - i) =
          i :: List.range' (i + 1) (param.geom.nrow - (i + 1)) := by
        rw [← List.range'_succ]
        congr 1
        omega
      rw [more, List.flatten_append, List.flatten_singleton, materializeStep]
      by_cases virtual : param.isProductOutput i = true
      · obtain ⟨two, -, product⟩ := queried_product committed inside virtual
        have done : ∀ row ∈ (queried w indices).take i, row.length = param.geom.t :=
          fun row member => width row (List.mem_of_mem_take member)
        have length : ((queried w indices).take i).flatten.length = i * param.geom.t := by
          rw [length_flatten_of_eq done, List.length_take, Nat.min_eq_left bound.le]
        have rowAt : ∀ r < i, (slice ((queried w indices).take i).flatten (r * param.geom.t)
            ((r + 1) * param.geom.t) : Exec ε _) = .ok ((queried w indices).getD r []) := by
          intro r earlier
          have place : r < ((queried w indices).take i).length := by
            rw [List.length_take]
            omega
          rw [slice_flatten done place, List.getElem_take, List.getD_eq_getElem _ _ (by omega)]
        have x := rowAt (i - 2) (by omega)
        have y := rowAt (i - 1) (by omega)
        have low : i * param.geom.t - 2 * param.geom.t = (i - 2) * param.geom.t :=
          (Nat.sub_mul ..).symm
        have middle : i * param.geom.t - param.geom.t = (i - 1) * param.geom.t := by
          rw [Nat.sub_mul, Nat.one_mul]
        have enough : 2 * param.geom.t ≤ i * param.geom.t := Nat.mul_le_mul_right _ two
        rw [show i - 2 + 1 = i - 1 by omega] at x
        rw [show i - 1 + 1 = i by omega] at y
        have sizes : ((queried w indices).getD (i - 2) []).length =
            ((queried w indices).getD (i - 1) []).length := by
          rw [getD_queried (by rw [committed.count]; omega),
            getD_queried (by rw [committed.count]; omega), List.length_map, List.length_map]
        rw [if_pos virtual]
        simp only [length, checkedSub_of_le enough,
          checkedSub_of_le (show param.geom.t ≤ i * param.geom.t by omega), low, middle, ok_bind, x, y,
          Blas.mul, Blas.elementwise_eq sizes, pure_eq_ok, ← product]
        simp [transmitted, left, virtual]
      · rw [if_neg virtual]
        have split : transmitted param w indices i (param.geom.nrow - i) =
            (queried w indices).getD i [] ::
              transmitted param w indices (i + 1) (param.geom.nrow - (i + 1)) := by
          rw [transmitted, left, List.filter_cons, if_pos (by simp [virtual]), List.map_cons]
          rfl
        simp only [split, pure_eq_ok]
  rw [materializeRows, ensure_of positive.ne', ok_bind, chunksExact_flatten positive sent, ran, ok_bind,
    isState]
  simp only [pure_eq_ok, ← rows, List.take_length]

theorem queried_column (inside : row < w.length) :
    (queried w indices).getD row [] = indices.map fun j => (column w j).getD row 0 := by
  rw [getD_queried inside]
  refine List.map_congr_left fun j _ => ?_
  have bound : row < (column w j).length := by simpa [column] using inside
  rw [List.getD_eq_getElem _ _ bound, List.getD_eq_getElem _ _ inside]
  simp only [column, List.getElem_map]

/-- **A row of the verifier** is the row of the prover at the queries. -/
theorem rowOf_eq (committed : Committed param w) (count : indices.length = param.geom.t)
    (inside : row < param.geom.nrow) :
    (rowOf param (queried w indices).flatten row : Exec ε _) =
      .ok (indices.map fun j => (column w j).getD row 0) := by
  have bound : row < (queried w indices).length := by
    rw [length_queried committed]
    exact inside
  rw [rowOf, slice_flatten (fun _ member => (length_of_mem_queried member).trans count) bound,
    ← List.getD_eq_getElem _ [] bound, queried_column]
  rw [committed.count]
  exact inside

/-- **A column of the verifier** is the column that the prover committed to. -/
theorem openedColumn_eq (positive : 0 < param.geom.t) (count : indices.length = param.geom.t)
    {query : Nat} (inside : query < indices.length) :
    (openedColumn param (queried w indices).flatten query : Exec ε _) =
      .ok (column w indices[query]) := by
  rw [openedColumn, ensure_of positive.ne', ok_bind, chunksExact_flatten positive
      fun _ member => (length_of_mem_queried member).trans count,
    mapM_eq_ok_map (g := fun row : List E => row.getD query 0) fun row member => ?_]
  · rw [queried, List.map_map, column]
    refine congrArg Except.ok (List.map_congr_left fun row _ => ?_)
    have bound : query < (indices.map fun j => row.getD j 0).length := by simpa using inside
    rw [Function.comp_apply, List.getD_eq_getElem _ _ bound, List.getElem_map]
  · have bound : query < row.length := by
      rw [length_of_mem_queried member]
      exact inside
    rw [getAt_of_lt bound, List.getD_eq_getElem _ _ bound]

/-! ### What is received -/

/-- A row with the given values in the queried columns. -/
def scatter (n : Nat) (indices : List Nat) (values : List E) : List E :=
  (List.range n).map fun j => values.getD (indices.idxOf j) 0

theorem length_scatter (n : Nat) (indices : List Nat) (values : List E) :
    (scatter n indices values).length = n := by simp [scatter]

theorem map_scatter {n : Nat} (distinct : indices.Nodup) (inside : ∀ j ∈ indices, j < n)
    {values : List E} (size : values.length = indices.length) :
    (indices.map fun j => (scatter n indices values).getD j 0) = values := by
  refine List.ext_getElem (by simp [size]) fun i bound _ => ?_
  have place : i < indices.length := by simpa using bound
  have below := inside indices[i] (List.getElem_mem place)
  rw [List.getElem_map, List.getD_eq_getElem _ _ (by rw [length_scatter]; exact below)]
  simp only [scatter, List.getElem_map, List.getElem_range, distinct.idxOf_getElem]
  exact List.getD_eq_getElem _ _ (by omega)

theorem map_rank (test : Nat → Bool) (n : Nat) :
    (((List.range n).filter test).map fun row => ((List.range row).filter test).length) =
      List.range ((List.range n).filter test).length := by
  induction n with
  | zero => rfl
  | succ n ih =>
    rw [List.range_succ, List.filter_append, List.map_append, ih, List.length_append]
    cases passes : test n with
    | false => simp [passes]
    | true => simp [passes, List.range_succ]

/-- The values received for a row that is transmitted. -/
def received (param : PolygeroParam) (rows : List E) (row : Nat) : List E :=
  chunk param.geom.t rows ((List.range row).filter fun r => !param.isProductOutput r).length

/-- A row with the values received for it, or the product of those received for its inputs. -/
def receivedRow (param : PolygeroParam) (rows : List E) (indices : List Nat) (row : Nat) : List E :=
  let sent := fun row => scatter param.geom.n indices (received param rows row)
  if param.isProductOutput row then List.zipWith (· * ·) (sent (row - 2)) (sent (row - 1))
  else sent row

/-- **Whatever rows are received**, they are the queried entries of rows of the right shape. -/
theorem exists_committed (param : PolygeroParam) {rows : List E}
    (size : rows.length = param.geom.t * param.geom.transmittedRows) (distinct : indices.Nodup)
    (inside : ∀ j ∈ indices, j < param.geom.n) (count : indices.length = param.geom.t) :
    ∃ w, Committed param w ∧ rows = (transmitted param w indices 0 param.geom.nrow).flatten := by
  have rowAt : ∀ row < param.geom.nrow,
      ((List.range param.geom.nrow).map (receivedRow param rows indices)).getD row [] =
        receivedRow param rows indices row := fun row below => by
    rw [List.getD_eq_getElem _ _ (by simpa using below), List.getElem_map, List.getElem_range]
  refine ⟨(List.range param.geom.nrow).map (receivedRow param rows indices), ⟨by simp, ?_, ?_⟩, ?_⟩
  · intro row member
    obtain ⟨i, -, rfl⟩ := List.mem_map.mp member
    rw [receivedRow]
    split
    · rw [List.length_zipWith, length_scatter, length_scatter, Nat.min_self]
    · exact length_scatter ..
  · intro row virtual
    obtain ⟨i, group, isRow⟩ := param.isProductOutput_iff.mp virtual
    have below : row < param.geom.nrow := by
      rw [PolygeroGeometry.nrow, PolygeroGeometry.dataRows]
      omega
    have plain : ∀ part, part = 1 ∨ part = 2 → param.isProductOutput (row - part) = false := by
      intro part isPart
      rw [Bool.eq_false_iff]
      intro other
      obtain ⟨j, -, isRow'⟩ := param.isProductOutput_iff.mp other
      omega
    rw [rowAt row below, rowAt (row - 2) (by omega), rowAt (row - 1) (by omega), receivedRow,
      if_pos virtual, receivedRow, if_neg (by simp [plain 2 (Or.inr rfl)]), receivedRow,
      if_neg (by simp [plain 1 (Or.inl rfl)])]
  · set w := (List.range param.geom.nrow).map (receivedRow param rows indices) with isW
    set kept := (List.range param.geom.nrow).filter fun row => !param.isProductOutput row with isKept
    have total : kept.length = param.geom.transmittedRows := by
      have length : (transmitted param w indices 0 param.geom.nrow).length =
          param.geom.transmittedRows := length_transmitted
      rwa [transmitted, List.length_map, ← List.range_eq_range', ← isKept] at length
    have ranks := map_rank (fun row => !param.isProductOutput row) param.geom.nrow
    rw [← isKept, total] at ranks
    have sent : transmitted param w indices 0 param.geom.nrow = kept.map (received param rows) := by
      rw [transmitted, ← List.range_eq_range', ← isKept]
      refine List.map_congr_left fun row member => ?_
      obtain ⟨isRow, plain⟩ := List.mem_filter.mp member
      have below := List.mem_range.mp isRow
      have rank : ((List.range row).filter fun r => !param.isProductOutput r).length <
          param.geom.transmittedRows := by
        rw [← List.mem_range, ← ranks]
        exact List.mem_map_of_mem member
      have long : (received param rows row).length = indices.length := by
        have last := Nat.mul_le_mul_right param.geom.t (show _ + 1 ≤ _ from rank)
        rw [Nat.succ_mul, Nat.mul_comm param.geom.transmittedRows, ← size] at last
        rw [received, chunk, List.length_take, List.length_drop]
        omega
      rw [getD_queried (by simpa [isW] using below), rowAt row below, receivedRow,
        if_neg (by simpa using plain), map_scatter distinct inside long]
    have blocks : kept.map (received param rows) =
        (List.range param.geom.transmittedRows).map (chunk param.geom.t rows) := by
      rw [← ranks, List.map_map]
      rfl
    rw [sent, blocks, flatten_chunk, List.take_of_length_le]
    rw [size, Nat.mul_comm]

end Longfellow.Polygero
