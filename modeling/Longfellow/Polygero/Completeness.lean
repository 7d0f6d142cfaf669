/-
**Completeness of Polygero.**

Every committed row holds the values of a polynomial of low degree, which has the witness among its
logical values. Both responses are polynomials made of these, low enough to be interpolated by the
verifier, and the logical values of the arithmetic one sum up the batched constraints.

* `polygero_complete` — **an honest proof is accepted.**
-/

import Longfellow.Polygero.Safety

set_option linter.unusedSectionVars false

namespace Longfellow.Polygero

open Lib PolygeroGeometry PolygeroParam Polynomial Finset

variable {ε ρ σ F : Type} [Field F] {sf : Subfield F} {param : PolygeroParam}
  {domain : RangeInterpolatorFactory F} {witness : List F} {subfieldBoundary : Nat} {p : F[X]}

/-! ### The rows as polynomials -/

/-- The values of a witness at the operands and the output of a product. -/
def productValues (witness : List F) (p : PolygeroProductConstraint) : F × F × F :=
  (witness.getD p.x 0, witness.getD p.y 0, witness.getD p.z 0)

/-- The polynomials of the rows of the products. -/
noncomputable def productPolynomials (x y : Nat → F[X]) (groups : Nat) : List F[X] :=
  (List.range groups).flatMap fun group => [x group, y group, x group * y group]

/-- The polynomials of committed rows: the two arithmetic masks, the data and the primary mask. -/
structure RowsOf (param : PolygeroParam) (domain : RangeInterpolatorFactory F) (witness : List F)
    (w : List (List F)) (u m : F[X]) (data : List F[X]) (fstar : F[X]) : Prop where
  rows : w = ([u, m] ++ data ++ [fstar]).map (evalsAt domain.point param.oracleRange.cols)
  count : data.length = param.geom.dataRows
  masks : u ∈ degreeLT F param.geom.k ∧ m ∈ degreeLT F param.geom.k
  zero : ∑ col ∈ Ico param.geom.t param.geom.k, m.eval (domain.point col) = 0
  low : ∀ p ∈ data, p ∈ degreeLT F param.geom.k
  laidOut : LaidOut param witness (param.products.map (productValues witness))
    fun row col => (data.getD row 0).eval (domain.point col)
  last : fstar ∈ degreeLT F (param.geom.k + param.geom.s)

/-- The polynomials of an operand of the products. -/
structure Operand (param : PolygeroParam) (domain : RangeInterpolatorFactory F) (witness : List F)
    (operand : PolygeroProductConstraint → Nat) (p : Nat → F[X]) : Prop where
  low : ∀ group < param.geom.productGroups, p group ∈ degreeLT F param.geom.productDimension
  values : ∀ i < param.geom.nq, (p (i / param.geom.productWidth)).eval
    (domain.point (param.geom.t + i % param.geom.productWidth)) =
      witness.getD (operand (param.products.getD i ⟨0, 0, 0⟩)) 0

section Products

variable (x y : Nat → F[X]) (groups : Nat)

theorem length_each : ∀ group ∈ List.range groups,
    [x group, y group, x group * y group].length = 3 := fun _ _ => rfl

theorem length_productPolynomials : (productPolynomials x y groups).length = 3 * groups := by
  rw [productPolynomials, length_flatMap_of_length (length_each x y groups), List.length_range]

theorem getD_productPolynomials {group : Nat} (inside : group < groups) {part : Nat}
    (small : part < 3) : (productPolynomials x y groups).getD (3 * group + part) 0 =
      [x group, y group, x group * y group].getD part 0 := by
  rw [productPolynomials, getD_flatMap_of_length (length_each x y groups) (by simpa using inside)
    small, List.getElem_range]

end Products

theorem exists_row (exact : domain.Exact sf) {source : IndexRange}
    (can : domain.canInterpolate source param.oracleRange = true) {samples : List F}
    (size : samples.length = source.len) :
    ∃ p ∈ degreeLT F source.len, (domain.plan source param.oracleRange).apply samples =
        evalsAt domain.point param.oracleRange.cols p ∧
      ∀ j < source.len, p.eval (domain.point (source.start + j)) = samples.getD j 0 := by
  obtain ⟨p, low, rfl⟩ := exists_polynomial exact can size
  exact ⟨p, low, exact.exact can p low, fun j inside => (getD_evalsAt inside p).symm⟩

theorem getD_behindMasks (size : Nat) (drawn values : List F) (j : Nat) :
    (behindMasks size drawn values).getD (drawn.length + j) 0 = values.getD j 0 := by
  rw [behindMasks, List.getD_append_right _ _ _ _ (Nat.le_add_right ..), Nat.add_sub_cancel_left]
  by_cases inside : j < values.length
  · rw [List.getD_append _ _ _ _ inside]
  · rw [List.getD_append_right _ _ _ _ (by omega), List.getD_eq_default values _ (by omega)]
    simp

theorem exists_masked (exact : domain.Exact sf) {size : Nat}
    (can : domain.canInterpolate ⟨0, size⟩ param.oracleRange = true) {drawn values : List F}
    (fits : drawn.length + values.length ≤ size) :
    ∃ p ∈ degreeLT F size, (domain.plan ⟨0, size⟩ param.oracleRange).apply
        (behindMasks size drawn values) = evalsAt domain.point param.oracleRange.cols p ∧
      ∀ j, drawn.length + j < size →
        p.eval (domain.point (drawn.length + j)) = values.getD j 0 := by
  obtain ⟨p, low, encoded, each⟩ := exists_row exact can
    (show (behindMasks size drawn values).length = _ by rw [length_behindMasks fits, len_zero])
  refine ⟨p, by simpa using low, encoded, fun j inside => ?_⟩
  rw [← getD_behindMasks size, ← each _ (by simpa using inside), Nat.zero_add]

theorem mul_mem_degreeLT {q : F[X]} {a b : Nat} (first : p ∈ degreeLT F (a + 1))
    (second : q ∈ degreeLT F b) : p * q ∈ degreeLT F (a + b) := by
  rw [mem_degreeLT] at first second ⊢
  by_cases zero : q = 0
  · rw [zero, mul_zero, degree_zero]
    exact WithBot.bot_lt_coe _
  by_cases zero' : p = 0
  · rw [zero', zero_mul, degree_zero]
    exact WithBot.bot_lt_coe _
  rw [degree_eq_natDegree zero'] at first
  rw [degree_eq_natDegree zero] at second
  rw [degree_mul, degree_eq_natDegree zero', degree_eq_natDegree zero]
  norm_cast at first second ⊢
  omega

section Laid

variable (admitted : param.Admitted)
include admitted

theorem product_place {i : Nat} (inside : i < param.geom.nq) :
    i / param.geom.productWidth < param.geom.productGroups ∧
      i % param.geom.productWidth < param.geom.productWidth := by
  have positive := admitted.valid.productWidth_pos (by omega)
  rw [productGroups, if_neg (by omega)]
  exact ⟨div_lt_divCeil positive inside, Nat.mod_lt _ positive⟩

theorem getD_products {β : Type} (g : PolygeroProductConstraint → β) (d : β) {i : Nat}
    (inside : i < param.geom.nq) :
    (param.products.map g).getD i d = g (param.products.getD i ⟨0, 0, 0⟩) := by
  rw [← admitted.count] at inside
  rw [List.getD_eq_getElem _ _ (by simpa using inside), List.getElem_map,
    List.getD_eq_getElem _ _ inside]

variable (witness) in
theorem exists_operand (exact : domain.Exact sf) (capacity : Capacity param.geom domain)
    (operand : PolygeroProductConstraint → Nat) {samples : Nat → List F}
    (long : ∀ group < param.geom.productGroups, (samples group).length = param.geom.t) :
    ∃ p, Operand param domain witness operand p ∧ ∀ group < param.geom.productGroups,
      (domain.plan ⟨0, param.geom.productDimension⟩ param.oracleRange).apply
        (operandSamples param witness operand (samples group) group) =
          evalsAt domain.point param.oracleRange.cols (p group) := by
  have can : domain.canInterpolate ⟨0, param.geom.productDimension⟩ param.oracleRange = true :=
    capacity.product
  have width : param.geom.productWidth = param.geom.productDimension - param.geom.t := rfl
  have fits : ∀ group < param.geom.productGroups, (samples group).length +
      ((chunk param.geom.productWidth param.products group).map
        fun p => witness.getD (operand p) 0).length ≤ param.geom.productDimension := by
    intro group inside
    have some : 0 < param.geom.nq := by
      by_contra none
      rw [productGroups, if_pos (by omega)] at inside
      omega
    have few := length_chunk_le param.geom.productWidth param.products group
    have positive := admitted.valid.products some
    rw [long group inside, List.length_map]
    omega
  choose! p low encoded values using fun group inside => exists_masked exact can (fits group inside)
  refine ⟨p, ⟨low, fun i inside => ?_⟩, encoded⟩
  obtain ⟨group, slot⟩ := product_place admitted inside
  have value := values _ group (i % param.geom.productWidth) (by rw [long _ group]; omega)
  rw [long _ group] at value
  rw [value, ← chunk_map, getD_chunk _ _ slot, Nat.mul_comm, Nat.div_add_mod,
    getD_products admitted _ _ inside]

variable {x y : Nat → F[X]} (isX : Operand param domain witness (·.x) x)
  (isY : Operand param domain witness (·.y) y)
include isX isY

theorem productPolynomials_low : ∀ p ∈ productPolynomials x y param.geom.productGroups,
    p ∈ degreeLT F param.geom.k := by
  have half : param.geom.productDimension ≤ param.geom.k ∧
      param.geom.productDimension - 1 + param.geom.productDimension ≤ param.geom.k := by
    rw [productDimension, divCeil]
    omega
  have below := admitted.valid.queries_lt
  have positive : 0 < param.geom.productDimension := by
    rw [productDimension, divCeil]
    omega
  intro p member
  obtain ⟨group, isGroup, member⟩ := List.mem_flatMap.mp member
  have lowX := isX.low group (List.mem_range.mp isGroup)
  have lowY := isY.low group (List.mem_range.mp isGroup)
  simp only [List.mem_cons, List.not_mem_nil, or_false] at member
  rcases member with rfl | rfl | rfl
  · exact degreeLT_mono half.1 lowX
  · exact degreeLT_mono half.1 lowY
  · refine degreeLT_mono half.2 (mul_mem_degreeLT ?_ lowY)
    rwa [Nat.sub_add_cancel positive]

theorem laidOut_polynomials {ordinary : Nat → F[X]}
    (original : ∀ i < param.geom.nw, (ordinary (i / param.geom.ordinaryWidth)).eval
      (domain.point (param.geom.t + i % param.geom.ordinaryWidth)) = witness.getD i 0)
    (satisfied : ∀ p ∈ param.products,
      witness.getD p.x 0 * witness.getD p.y 0 = witness.getD p.z 0) :
    LaidOut param witness (param.products.map (productValues witness)) fun row col =>
      (((List.range param.geom.ordinaryRows).map ordinary ++
        productPolynomials x y param.geom.productGroups).getD row 0).eval (domain.point col) := by
  have front : ((List.range param.geom.ordinaryRows).map ordinary).length =
    param.geom.ordinaryRows := by simp
  have place : ∀ i < param.geom.nq, ∀ part < 3,
      ((List.range param.geom.ordinaryRows).map ordinary ++
        productPolynomials x y param.geom.productGroups).getD
          (param.geom.ordinaryRows + (3 * (i / param.geom.productWidth) + part)) 0 =
      [x (i / param.geom.productWidth), y (i / param.geom.productWidth),
        x (i / param.geom.productWidth) * y (i / param.geom.productWidth)].getD part 0 := by
    intro i inside part small
    rw [List.getD_append_right _ _ _ _ (by omega), front, Nat.add_sub_cancel_left,
      getD_productPolynomials _ _ _ (product_place admitted inside).1 small]
  refine ⟨fun i inside => ?_, fun i inside => ?_, fun i inside => ?_, fun i inside => ?_⟩
  · have row : i / param.geom.ordinaryWidth < param.geom.ordinaryRows :=
      div_lt_divCeil admitted.valid.ordinaryWidth_pos inside
    rw [List.getD_append _ _ _ _ (by omega), List.getD_eq_getElem _ _ (by omega),
      List.getElem_map, List.getElem_range, original i inside]
  · have here := place i inside 0 (by decide)
    rw [Nat.add_zero] at here
    rw [here, getD_products admitted _ _ inside]
    exact isX.values i inside
  · rw [place i inside 1 (by decide), getD_products admitted _ _ inside]
    exact isY.values i inside
  · have isProduct : param.products.getD i ⟨0, 0, 0⟩ ∈ param.products := by
      rw [← admitted.count] at inside
      rw [List.getD_eq_getElem _ _ inside]
      exact List.getElem_mem inside
    rw [place i inside 2 (by decide), getD_products admitted _ _ inside]
    exact (eval_mul.trans (congrArg₂ _ (isX.values i inside) (isY.values i inside))).trans
      (satisfied _ isProduct)

end Laid

/-- What holds of the prover's choices: the masks of subfield rows are drawn from the subfield. -/
structure SubfieldEngine (rng : RandomEngine ρ F) (sf : Subfield F) : Prop where
  fills : Merkle.FillsBytes rng
  draws : ∀ r, sf.contains (rng.eltSubfield r).1 = true
  zero : sf.contains 0 = true

/-- A witness that the prover commits to: its declared part is in the subfield, and it satisfies the
products. -/
structure Satisfies (sf : Subfield F) (param : PolygeroParam)
    (domain : RangeInterpolatorFactory F) (subfieldBoundary : Nat) (witness : List F) : Prop where
  size : witness.length = param.geom.nw
  within : subfieldBoundary ≤ witness.length
  declared : ∀ v ∈ witness.take subfieldBoundary, sf.contains v = true
  table : subfieldBoundary ≠ 0 →
    ∀ j < param.geom.k + param.geom.n, sf.contains (domain.point j) = true
  products : ∀ p ∈ param.products, witness.getD p.x 0 * witness.getD p.y 0 = witness.getD p.z 0

variable {rng : RandomEngine ρ F} {masks : Masks F} {a : List (PolygeroLinearTerm F)}
  {sha256 : Bytes → Digest} {b : List F}

theorem contains_eltSubfieldSlice (engine : SubfieldEngine rng sf) (count : Nat) (r : ρ) :
    ∀ v ∈ (rng.eltSubfieldSlice count r).1, sf.contains v = true := by
  induction count generalizing r with
  | zero => simp [RandomEngine.eltSubfieldSlice, drawMany]
  | succ count ih =>
    exact List.forall_mem_cons.mpr ⟨engine.draws r, ih (rng.eltSubfield r).2⟩

section Rows

variable (exact : domain.Exact sf) (capacity : Capacity param.geom domain)
  (admitted : param.Admitted) (engine : SubfieldEngine rng sf)
  (satisfies : Satisfies sf param domain subfieldBoundary witness)
  (drawn : masks.For param witness subfieldBoundary rng)
include engine satisfies drawn

theorem contains_ordinarySamples {row : Nat} (inside : row < param.geom.ordinaryRows)
    (declared : Declared param witness subfieldBoundary row) :
    ∀ v ∈ ordinarySamples param witness masks row, sf.contains v = true := by
  obtain ⟨r, isDrawn⟩ := (drawn.ordinary row inside).2 declared
  have few := length_chunk_le param.geom.ordinaryWidth witness row
  intro v member
  simp only [ordinarySamples, behindMasks, List.mem_append] at member
  rcases member with masked | block | padding
  · exact contains_eltSubfieldSlice engine _ r v (isDrawn ▸ masked)
  · refine satisfies.declared v ?_
    obtain ⟨i, place, rfl⟩ := List.mem_iff_getElem.mp block
    have here : i < param.geom.ordinaryWidth := place.trans_le few
    rw [chunk, List.length_take, List.length_drop] at place
    rw [Declared, Nat.succ_mul] at declared
    simp only [chunk, List.getElem_take, List.getElem_drop]
    exact List.mem_take_iff_getElem.mpr ⟨_, by omega, rfl⟩
  · rw [List.eq_of_mem_replicate padding]
    exact engine.zero

include exact capacity admitted

theorem exists_ordinary : ∃ p : Nat → F[X],
    (∀ row < param.geom.ordinaryRows, p row ∈ degreeLT F param.geom.k ∧
      ordinaryRow param witness subfieldBoundary (domain.plan ⟨0, param.geom.k⟩ param.oracleRange)
        (ordinarySamples param witness masks row) row =
          evalsAt domain.point param.oracleRange.cols (p row)) ∧
    ∀ i < param.geom.nw, (p (i / param.geom.ordinaryWidth)).eval
      (domain.point (param.geom.t + i % param.geom.ordinaryWidth)) = witness.getD i 0 := by
  have can : domain.canInterpolate ⟨0, param.geom.k⟩ param.oracleRange = true := capacity.rows
  have width : param.geom.t + param.geom.ordinaryWidth = param.geom.k :=
    Nat.add_sub_cancel' admitted.valid.queries_lt.le
  have fits : ∀ row < param.geom.ordinaryRows, (masks.ordinary row).length +
      (chunk param.geom.ordinaryWidth witness row).length ≤ param.geom.k := fun row inside => by
    have few := length_chunk_le param.geom.ordinaryWidth witness row
    rw [(drawn.ordinary row inside).1]
    omega
  choose! p low encoded values using fun row inside => exists_masked exact can (fits row inside)
  refine ⟨p, fun row inside => ⟨low row inside, ?_⟩, fun i inside => ?_⟩
  · rw [ordinaryRow]
    split
    · next declared =>
      have size : (ordinarySamples param witness masks row).length =
          (⟨0, param.geom.k⟩ : IndexRange).len := by
        rw [ordinarySamples, length_behindMasks (fits row inside), len_zero]
      rw [exact.subfield can _ size
        (contains_ordinarySamples engine satisfies drawn inside declared)]
      exact encoded row inside
    · exact encoded row inside
  · have positive := admitted.valid.ordinaryWidth_pos
    have row := div_lt_divCeil positive inside
    have slot := Nat.mod_lt i positive
    have long := (drawn.ordinary _ row).1
    have value := values _ row (i % param.geom.ordinaryWidth) (by omega)
    rw [long] at value
    rw [value, getD_chunk _ _ slot, Nat.mul_comm, Nat.div_add_mod]

/-- **Encoded rows are the values of polynomials**, with the witness among the logical values. -/
theorem exists_rows : ∃ u m data fstar,
    RowsOf param domain witness (encodedRows param domain witness subfieldBoundary masks)
      u m data fstar := by
  have free : domain.canInterpolate (param.oraclePrefix param.geom.k) param.oracleRange = true :=
    capacity.free
  have rows : domain.canInterpolate ⟨0, param.geom.k⟩ param.oracleRange = true := capacity.rows
  have primary : domain.canInterpolate (param.oraclePrefix (param.geom.k + param.geom.s))
    param.oracleRange = true := capacity.primary
  obtain ⟨u, lowU, isU, -⟩ := exists_row exact free (drawn.u.trans (by simp))
  obtain ⟨m, lowM, isM, valuesM⟩ := exists_row exact rows (drawn.m.trans (by simp))
  obtain ⟨fstar, lowF, isF, -⟩ := exists_row exact primary (drawn.fstar.trans (by simp))
  obtain ⟨ordinary, each, original⟩ :=
    exists_ordinary exact capacity admitted engine satisfies drawn
  obtain ⟨x, isX, encodedX⟩ := exists_operand witness admitted exact capacity (·.x)
    fun group inside => (drawn.operands group inside).1
  obtain ⟨y, isY, encodedY⟩ := exists_operand witness admitted exact capacity (·.y)
    fun group inside => (drawn.operands group inside).2
  refine ⟨u, m, (List.range param.geom.ordinaryRows).map ordinary ++
    productPolynomials x y param.geom.productGroups, fstar, ?rows, ?count,
    ⟨by simpa using lowU, by simpa using lowM⟩, ?zero, fun p member => ?low,
    laidOut_polynomials admitted isX isY original satisfies.products, by simpa using lowF⟩
  case rows =>
    have tripled : ∀ group ∈ List.range param.geom.productGroups,
        triple (operandRows param domain witness (masks.operands group) group) =
          [x group, y group, x group * y group].map
            (evalsAt domain.point param.oracleRange.cols) := fun group member => by
      have inside := List.mem_range.mp member
      simp only [triple, operandRows, encodedX group inside, encodedY group inside, List.map_cons,
        List.map_nil, evalsAt, List.zipWith_map, List.zipWith_self, eval_mul]
    rw [encodedRows, batchedRows, isU, isM, isF, List.flatMap_congr tripled,
      List.map_congr_left fun row member => (each row (List.mem_range.mp member)).2]
    simp only [productPolynomials, List.map_append, List.map_map, List.map_flatMap, List.map_cons,
      List.map_nil, List.append_assoc, Function.comp_def]
  case count =>
    rw [List.length_append, List.length_map, List.length_range, length_productPolynomials, dataRows]
  case zero =>
    have slots : masks.m.drop param.geom.t = (List.range (param.geom.k - param.geom.t)).map
        fun i => m.eval (domain.point (param.geom.t + i)) := by
      refine List.ext_getElem (by simp [drawn.m]) fun i bound _ => ?_
      rw [List.length_drop, drawn.m] at bound
      have value := valuesM (param.geom.t + i) (by rw [len_zero]; omega)
      rw [Nat.zero_add] at value
      simp only [List.getElem_drop, List.getElem_map, List.getElem_range, value]
      exact (List.getD_eq_getElem _ _ _).symm
    rw [sum_Ico_eq_sum_range, ← drawn.zero, slots]
    rfl
  case low =>
    rcases List.mem_append.mp member with plain | product
    · obtain ⟨row, isRow, rfl⟩ := List.mem_map.mp plain
      exact (each row (List.mem_range.mp isRow)).1
    · exact productPolynomials_low admitted isX isY p product

end Rows

/-! ### The responses as polynomials -/

section Responses

variable {w : List (List F)} {u m fstar : F[X]} {data : List F[X]}
  (rowsOf : RowsOf param domain witness w u m data fstar)

/-- The primary response, for the polynomials `b` of the challenges. -/
noncomputable def batchedPolynomial (b : Nat → F[X]) (rows : List F[X]) (fstar : F[X]) : F[X] :=
  fstar + ∑ row ∈ range rows.length, b row * rows.getD row 0

/-- The arithmetic response, for the polynomials `c` of the batched constraints and the selector. -/
noncomputable def maskedPolynomial (domain : RangeInterpolatorFactory F) (k : Nat) (c : Nat → F[X])
    (s : F[X]) (u m : F[X]) (data : List F[X]) : F[X] :=
  ∑ row ∈ range data.length, c row * data.getD row 0 + vanishingPolynomial domain k * u + s * m

theorem getD_map_eval (ps : List F[X]) (x : F) (i : Nat) :
    (ps.map fun p => p.eval x).getD i 0 = (ps.getD i 0).eval x := by
  rw [← eval_zero (x := x), List.getD_map]

theorem evalsAt_oraclePrefix (length : Nat) (p : F[X]) :
    evalsAt domain.point (param.oraclePrefix length).cols p =
      (List.range length).map fun j => p.eval (domain.point (param.geom.k + j)) := by
  rw [evalsAt, IndexRange.cols, len_oraclePrefix, List.range'_eq_map_range, List.map_map]
  rfl

include rowsOf

theorem RowsOf.column {j : Nat} (inside : j < param.geom.n) :
    column w j = ([u, m] ++ data ++ [fstar]).map
      fun p => p.eval (domain.point (param.geom.k + j)) := by
  rw [Polygero.column, rowsOf.rows, List.map_map]
  refine List.map_congr_left fun p _ => ?_
  rw [Function.comp_apply, getD_evalsAt (by simpa using inside), oracleRange]

theorem RowsOf.length_before : ([u, m] ++ data).length = param.fstarRow := by
  rw [List.length_append, rowsOf.count, fstarRow, nrow]
  simp
  omega

theorem RowsOf.batchedAt_eq (b : Nat → F[X]) {j : Nat} (inside : j < param.geom.n) :
    batchedAt param domain b w j =
      (batchedPolynomial b ([u, m] ++ data) fstar).eval (domain.point (param.geom.k + j)) := by
  have size := rowsOf.length_before
  rw [batchedAt, primaryAt, rowsOf.column inside, batchedPolynomial, size, eval_add, eval_finsetSum]
  simp only [getD_map_eval, eval_mul]
  congr 1
  · rw [List.getD_append_right _ _ _ _ size.le, size, Nat.sub_self, List.getD_cons_zero]
  · refine sum_congr rfl fun row member => ?_
    rw [List.getD_append _ _ _ _ (by rw [size]; exact mem_range.mp member)]

theorem RowsOf.maskedAt_eq (c : Nat → F[X]) (s : F[X]) {j : Nat} (inside : j < param.geom.n) :
    maskedAt param domain c s w j = (maskedPolynomial domain param.geom.k c s u m data).eval
      (domain.point (param.geom.k + j)) := by
  rw [maskedAt, arithmeticAt, rowsOf.column inside, maskedPolynomial, eval_add, eval_add,
    eval_finsetSum, rowsOf.count]
  simp only [getD_map_eval, eval_mul]
  congr 2
  refine sum_congr rfl fun row member => ?_
  have below : row < data.length := by
    rw [rowsOf.count]
    exact mem_range.mp member
  rw [dataStart, List.append_assoc, List.getD_append_right _ _ _ _ (by simp),
    List.getD_append _ _ _ _ (by simpa using below)]
  simp

theorem RowsOf.mem_degreeLT {i : Nat} : data.getD i 0 ∈ degreeLT F param.geom.k := by
  by_cases inside : i < data.length
  · rw [List.getD_eq_getElem _ _ inside]
    exact rowsOf.low _ (List.getElem_mem inside)
  · rw [List.getD_eq_default _ _ (by omega)]
    exact zero_mem _

/-- **The degree of the primary response.** -/
theorem batched_low {b : Nat → F[X]}
    (low : ∀ row < param.fstarRow, b row ∈ degreeLT F (param.geom.s + 1)) :
    batchedPolynomial b ([u, m] ++ data) fstar ∈ degreeLT F (param.geom.k + param.geom.s) := by
  have size := rowsOf.length_before
  refine add_mem rowsOf.last (sum_mem fun row member => ?_)
  have inside := mem_range.mp member
  rw [Nat.add_comm]
  refine mul_mem_degreeLT (low row (size ▸ inside)) ?_
  have each : ∀ p ∈ [u, m] ++ data, p ∈ degreeLT F param.geom.k := List.forall_mem_cons.mpr
    ⟨rowsOf.masks.1, List.forall_mem_cons.mpr ⟨rowsOf.masks.2, rowsOf.low⟩⟩
  rw [List.getD_eq_getElem _ _ inside]
  exact each _ (List.getElem_mem inside)

/-- **The degree of the arithmetic response.** -/
theorem masked_low (positive : 0 < param.geom.k) {c : Nat → F[X]} {s : F[X]}
    (low : ∀ row < param.geom.dataRows, c row ∈ degreeLT F param.geom.k)
    (selects : Selects domain param.geom s) :
    maskedPolynomial domain param.geom.k c s u m data ∈ degreeLT F (2 * param.geom.k) := by
  have product : ∀ {p q : F[X]}, p ∈ degreeLT F param.geom.k → q ∈ degreeLT F param.geom.k →
      p * q ∈ degreeLT F (2 * param.geom.k) := fun {p q} first second => by
    refine degreeLT_mono (show param.geom.k - 1 + param.geom.k ≤ _ by omega)
      (mul_mem_degreeLT ?_ second)
    rwa [Nat.sub_add_cancel positive]
  have lowV : vanishingPolynomial domain param.geom.k ∈ degreeLT F (param.geom.k + 1) := by
    rw [Polynomial.mem_degreeLT, vanishingPolynomial, degree_prod]
    simp
    exact_mod_cast Nat.lt_succ_self _
  refine add_mem (add_mem (sum_mem fun row member => ?_) ?_) (product selects.1 rowsOf.masks.2)
  · refine product (low row ?_) rowsOf.mem_degreeLT
    rw [← rowsOf.count]
    exact mem_range.mp member
  · rw [Nat.two_mul]
    exact mul_mem_degreeLT lowV rowsOf.masks.1

/-- The logical values of the data rows behind the slots of the masks. -/
noncomputable def logicalValues (param : PolygeroParam) (domain : RangeInterpolatorFactory F)
    (data : List F[X]) (row col : Nat) : F :=
  if col < param.geom.t then 0 else (data.getD row 0).eval (domain.point col)

/-- **The logical sum** of the arithmetic response: the masks cancel, and what is left are the
batched constraints applied to the logical values. -/
theorem logical_sum {rows : List (List F)} (count : rows.length = param.geom.dataRows)
    (long : ∀ row ∈ rows, row.length = param.geom.k) {c : Nat → F[X]}
    (interpolates : Interpolates domain ⟨0, param.geom.k⟩ rows c) {s : F[X]}
    (selects : Selects domain param.geom s) :
    ∑ col ∈ Ico param.geom.t param.geom.k,
        (maskedPolynomial domain param.geom.k c s u m data).eval (domain.point col) =
      rowsAgainst rows (logicalValues param domain data) := by
  have value : ∀ col ∈ Ico param.geom.t param.geom.k,
      (maskedPolynomial domain param.geom.k c s u m data).eval (domain.point col) =
        ∑ row ∈ range rows.length, (rows.getD row []).getD col 0 *
          logicalValues param domain data row col + m.eval (domain.point col) := by
    intro col member
    obtain ⟨behind, below⟩ := mem_Ico.mp member
    have vanishes : (vanishingPolynomial domain param.geom.k).eval (domain.point col) = 0 := by
      rw [vanishingPolynomial, eval_prod]
      exact prod_eq_zero (mem_range.mpr below) (by simp)
    have selected : s.eval (domain.point col) = 1 := by
      rw [selects.2 col below, if_neg (by omega)]
    rw [maskedPolynomial, eval_add, eval_add, eval_mul, eval_mul, vanishes, selected, zero_mul,
      add_zero, one_mul, eval_finsetSum, rowsOf.count, ← count]
    refine congrArg (· + _) (sum_congr rfl fun row isRow => ?_)
    have samples := (interpolates row (mem_range.mp isRow)).2
    rw [eval_mul, logicalValues, if_neg (by omega), ← samples,
      getD_evalsAt (by simpa using below), Nat.zero_add]
  rw [sum_congr rfl value, sum_add_distrib, rowsOf.zero, add_zero, sum_comm, rowsAgainst]
  refine sum_congr rfl fun row isRow => ?_
  have size : (rows.getD row []).length = param.geom.k := by
    rw [List.getD_eq_getElem _ _ (mem_range.mp isRow)]
    exact long _ (List.getElem_mem _)
  rw [against, size]
  refine sum_subset (fun col member => mem_range.mpr (mem_Ico.mp member).2)
    fun col inside outside => ?_
  rw [logicalValues, if_pos, mul_zero]
  by_contra behind
  exact outside (mem_Ico.mpr ⟨by omega, mem_range.mp inside⟩)

theorem RowsOf.laidOut_logical : LaidOut param witness
    (param.products.map (productValues witness)) (logicalValues param domain data) := by
  obtain ⟨original, x, y, z⟩ := rowsOf.laidOut
  refine ⟨fun i inside => ?_, fun i inside => ?_, fun i inside => ?_, fun i inside => ?_⟩ <;>
    rw [logicalValues, if_neg (by omega)]
  · exact original i inside
  · exact x i inside
  · exact y i inside
  · exact z i inside

/-- **The batched constraints of satisfied ones** sum up to the weighted constants. -/
theorem batched_satisfied (admitted : param.Admitted) (size : witness.length = param.geom.nw)
    {alpha : List F}
    (inside : ∀ term ∈ a, term.c < b.length ∧ term.w < param.geom.nw)
    (long : alpha.length = b.length + 3 * param.geom.nq)
    (satisfied : ∀ c < b.length, rowValue a witness c + b.getD c 0 = 0) :
    ∃ rows, (batchConstraints param b a alpha : Exec ε _) = .ok rows ∧
      rows.length = param.geom.dataRows ∧ (∀ row ∈ rows, row.length = param.geom.k) ∧
      rowsAgainst rows (logicalValues param domain data) + dot (alpha.take b.length) b = 0 := by
  obtain ⟨rows, ran, count, each, sum⟩ := batchConstraints_identity (ε := ε) admitted size
    rowsOf.laidOut_logical inside long.ge
  have copied : ∀ i ∈ range param.geom.nq, copyDifference witness
      (originals (param.products.getD i ⟨0, 0, 0⟩)) (copyWeights alpha b.length i)
      ((param.products.map (productValues witness)).getD i 0) = 0 := by
    intro i member
    have isProduct : i < param.products.length := by
      rw [admitted.count]
      exact mem_range.mp member
    rw [List.getD_eq_getElem _ _ isProduct,
      List.getD_eq_getElem _ _ (by simpa using isProduct), List.getElem_map]
    simp [copyDifference, originals, productValues]
  have constants : dot (alpha.take b.length) b =
      ∑ c ∈ range b.length, alpha.getD c 0 * b.getD c 0 := by
    have size : (alpha.take b.length).length = b.length := by
      rw [List.length_take]
      omega
    rw [← against_getD, against, size]
    refine sum_congr rfl fun c member => ?_
    rw [List.getD_eq_getElem?_getD, List.getElem?_take_of_lt (mem_range.mp member),
      ← List.getD_eq_getElem?_getD]
  refine ⟨rows, ran, count, each, ?_⟩
  rw [sum, sum_eq_zero copied, add_zero, weightedRows, constants, ← sum_add_distrib]
  refine sum_eq_zero fun c member => ?_
  rw [← mul_add, satisfied c (mem_range.mp member), mul_zero]

end Responses

/-! ### The honest parties -/

section Parties

variable [DecidableEq F] {f : SerializableField F} {param : BoundParam}
  {domain : EvaluationDomain F} (setting : Setting param domain)
include setting

omit setting [Field F] in
theorem allM_eq_true {α : Type} {test : α → Exec ε Bool} {xs : List α}
    (each : ∀ x ∈ xs, test x = .ok true) : xs.allM test = .ok true := by
  induction xs with
  | nil => rfl
  | cons x xs ih =>
    rw [List.allM, each x (List.mem_cons_self ..), ok_bind]
    exact ih fun later member => each later (List.mem_cons_of_mem _ member)

theorem validateWitness_returns (satisfies : Satisfies sf param.toPolygeroParam
    domain.toRangeInterpolatorFactory subfieldBoundary witness) :
    validateWitness sf param witness subfieldBoundary domain = .ok () := by
  have small := (Machine.bounded_of_valid setting.admitted.valid).each
  have stop : (addSize param.geom.k param.geom.n : Exec String Nat) =
    .ok (param.geom.k + param.geom.n) := addSize_of_lt (by omega)
  have declared : ((witness.drop 0).take (subfieldBoundary - 0)).all sf.contains = true :=
    List.all_eq_true.mpr satisfies.declared
  have products : param.products.allM (productHolds witness) = (.ok true : Exec String Bool) := by
    refine allM_eq_true fun p member => ?_
    obtain ⟨x, y, z⟩ := setting.admitted.inside p member
    rw [← satisfies.size] at x y z
    have holds := satisfies.products p member
    rw [List.getD_eq_getElem _ _ x, List.getD_eq_getElem _ _ y, List.getD_eq_getElem _ _ z] at holds
    rw [productHolds, getAt_of_lt x, ok_bind, getAt_of_lt y, ok_bind, getAt_of_lt z, ok_bind,
      pure_eq_ok, decide_eq_true holds]
  rw [validateWitness, check_of ⟨satisfies.size, satisfies.within⟩, ok_bind,
    slice_of_le (Nat.zero_le _) satisfies.within, ok_bind, check_of declared, ok_bind]
  by_cases none : subfieldBoundary = 0
  · rw [if_neg (not_not.mpr none)]
    simp only [products, ok_bind, check_of]
  · have table : (List.range (param.geom.k + param.geom.n)).allM (fun i => do
        let x ← domain.pointAt i
        pure (sf.contains x)) = (.ok true : Exec String Bool) := by
      refine allM_eq_true fun i member => ?_
      have inside := List.mem_range.mp member
      have known := inside.trans_le (setting.tabled setting.capacity.response).2
      rw [EvaluationDomain.pointAt, ensure_of known, ok_bind, pure_eq_ok, ok_bind, pure_eq_ok,
        satisfies.table none i inside]
    rw [if_pos none, stop, ok_bind, table, ok_bind, check_of rfl, ok_bind, products, ok_bind,
      check_of rfl]

/-- What an honest prover keeps. -/
structure Honest (sha256 : Bytes → Digest) (f : SerializableField F) (param : BoundParam)
    (domain : EvaluationDomain F) (witness : List F) (prover : PolygeroProver F)
    (com : PolygeroCommitment) (u m : F[X]) (data : List F[X]) (fstar : F[X]) : Prop where
  bound : prover.param = param
  rowsOf : RowsOf param.toPolygeroParam domain.toRangeInterpolatorFactory witness prover.w
    u m data fstar
  committed : Committed param.toPolygeroParam prover.w
  salts : prover.salts.length = param.geom.n
  built : Built (node sha256 param.context) (leaves (columnHashes sha256 f param.context)
    param.geom.n prover.w prover.salts) prover.tree
  root : (prover.tree.root : Exec String Digest) = .ok com.root

variable (sha256 f) in
/-- **The commitment to a witness.** -/
theorem commit_returns (exact : domain.Exact sf) (engine : SubfieldEngine rng sf)
    (known : param.domainId = domain.domainId) (satisfies : Satisfies sf param.toPolygeroParam
      domain.toRangeInterpolatorFactory subfieldBoundary witness)
    (ts : QueryTranscript σ F) (t : σ) (r : ρ) : ∃ prover com r',
      PolygeroProver.commit sha256 f sf ts rng subfieldBoundary witness param t domain r =
        .ok ((prover, com), receiveCommitment ts param com t, r') ∧
      ∃ u m data fstar, Honest sha256 f param domain witness prover com u m data fstar := by
  have valid := setting.admitted.valid
  obtain ⟨masks, r', drawn, encoded⟩ := encodeRows_eq (ε := String) rng setting.sized
    setting.capacity setting.admitted satisfies.size subfieldBoundary r
  have committed := committed_encodedRows rng setting.sized setting.capacity valid drawn
  obtain ⟨u, m, data, fstar, rowsOf⟩ := exists_rows exact setting.capacity setting.admitted engine
    satisfies drawn
  generalize encodedRows param.toPolygeroParam _ witness subfieldBoundary masks = w at *
  obtain ⟨tree, salts, r'', hashed, count, built⟩ := commitColumns_returns (ε := String)
    (columnHashes sha256 f param.context) engine.fills valid committed r'
  have positive : 1 < tree.layers.length := by
    have := valid.queries
    have := valid.queries_lt
    have := valid.arithmetic
    have columns : (leaves (columnHashes sha256 f param.context) param.geom.n w salts).length =
        param.geom.n := by simp [leaves]
    rw [built.length, columns]
    omega
  have root : (tree.root : Exec String Digest) = .ok tree.layers[1] := getAt_of_lt positive
  refine ⟨⟨param, w, tree, salts⟩, ⟨tree.layers[1]⟩, r'', ?_, u, m, data, fstar, rfl, rowsOf,
    committed, count, built, root⟩
  simp only [PolygeroProver.commit, check_of known, validateWitness_returns setting satisfies,
    encoded, hashed, root, ok_bind, pure_eq_ok]

section Accepted

variable (exact : domain.Exact sf) {indices : List Nat} (count : indices.length = param.geom.t)
  (inside : ∀ j ∈ indices, j < param.geom.n)
include exact

theorem interpolateRange_evalsAt {length : Nat} {destination : IndexRange}
    (can : domain.canInterpolate (param.oraclePrefix length) destination = true)
    (low : p ∈ degreeLT F length) :
    (domain.interpolateRange param.geom.k
        (evalsAt domain.point (param.oraclePrefix length).cols p) destination : Exec ε _) =
      .ok (evalsAt domain.point destination.cols p) := by
  have size : (evalsAt domain.point (param.oraclePrefix length).cols p).length = length := by
    simp [IndexRange.cols]
  rw [RangeInterpolatorFactory.interpolateRange, size]
  change (domain.makeRange (param.oraclePrefix length) destination >>= _) = _
  rw [makeRange_eq can, ok_bind, pure_eq_ok, exact.exact can p (by simpa using low)]

include inside

theorem verifyPrimaryResponse_accepts
    (low : p ∈ degreeLT F (param.geom.k + param.geom.s)) {samples : List (List F)} {opened : List F}
    (expected : expectedPrimary param.toPolygeroParam domain.toRangeInterpolatorFactory indices
      samples opened = (.ok (indices.map fun j => p.eval (domain.point (param.geom.k + j))) :
        Exec String _)) :
    verifyPrimaryResponse param.toPolygeroParam domain.toRangeInterpolatorFactory
      (evalsAt domain.point (param.oraclePrefix (param.geom.k + param.geom.s)).cols p) indices
      samples opened = .ok () := by
  have can : domain.canInterpolate (param.oraclePrefix (param.geom.k + param.geom.s))
    param.oracleRange = true := setting.capacity.primary
  have actual := gather_returns (ε := String) inside (show (evalsAt domain.point
    param.oracleRange.cols p).length = param.geom.n by simp [IndexRange.cols])
  rw [verifyPrimaryResponse, expected, ok_bind, interpolateRange_evalsAt setting exact can low,
    ok_bind, actual, ok_bind, check_of]
  refine List.map_congr_left fun j member => ?_
  rw [getD_evalsAt (by simpa using inside j member), oracleRange]

theorem verifyArithmetic_accepts (low : p ∈ degreeLT F (2 * param.geom.k))
    {rows : List (List F)} {opened : List F} {tau : F}
    (sum : ∑ col ∈ Ico param.geom.t param.geom.k, p.eval (domain.point col) + tau = 0)
    (expected : expectedArithmetic param.toPolygeroParam domain.toRangeInterpolatorFactory indices
      rows opened = (.ok (indices.map fun j => p.eval (domain.point (param.geom.k + j))) :
        Exec String _)) :
    verifyArithmetic param.toPolygeroParam domain.toRangeInterpolatorFactory
      (evalsAt domain.point (param.oraclePrefix (2 * param.geom.k)).cols p) indices rows opened
      tau = .ok () := by
  have below := setting.admitted.valid.queries_lt
  have can : domain.canInterpolate (param.oraclePrefix (2 * param.geom.k))
    ⟨0, param.geom.k + param.geom.n⟩ = true := setting.capacity.response
  set z := evalsAt domain.point (⟨0, param.geom.k + param.geom.n⟩ : IndexRange).cols p with isZ
  have size : z.length = param.geom.k + param.geom.n := by simp [isZ, IndexRange.cols]
  have entry : ∀ (j : Nat) (bound : j < z.length), z[j] = p.eval (domain.point j) :=
    fun j bound => by simp [isZ, evalsAt, IndexRange.cols]
  have logical : (z.drop param.geom.t).take (param.geom.k - param.geom.t) =
      (List.range (param.geom.k - param.geom.t)).map
        fun i => p.eval (domain.point (param.geom.t + i)) := by
    refine List.ext_getElem (by simp; omega) fun i _ _ => ?_
    rw [List.getElem_take, List.getElem_drop, entry, List.getElem_map, List.getElem_range]
  have zero : Blas.dot1 ((z.drop param.geom.t).take (param.geom.k - param.geom.t)) + tau = 0 := by
    rw [Blas.dot1_eq, logical, ← sum, sum_Ico_eq_sum_range]
    rfl
  have oracle : ((z.drop param.geom.k).take (z.length - param.geom.k)).length = param.geom.n := by
    rw [List.length_take, List.length_drop]
    omega
  have actual : (indices.map fun j =>
      ((z.drop param.geom.k).take (z.length - param.geom.k)).getD j 0) =
      indices.map fun j => p.eval (domain.point (param.geom.k + j)) := by
    refine List.map_congr_left fun j member => ?_
    have place := inside j member
    rw [List.getD_eq_getElem _ _ (by omega), List.getElem_take, List.getElem_drop, entry]
  rw [verifyArithmetic, interpolateRange_evalsAt setting exact can low, ← isZ]
  simp only [ok_bind]
  rw [slice_of_le below.le (by omega), ok_bind, check_of zero, ok_bind,
    slice_of_le (by omega) le_rfl, ok_bind, gather_returns inside oracle, ok_bind, expected,
    ok_bind, check_of actual]

end Accepted

section Run

variable (exact : domain.Exact sf) {prover : PolygeroProver F} {com : PolygeroCommitment}
  {u m fstar : F[X]} {data : List F[X]}
  (honest : Honest sha256 f param domain witness prover com u m data fstar)
include exact honest

/-- What the verifier finds at the queries, for the responses `h` and `z`. -/
structure Answers (param : BoundParam) (domain : EvaluationDomain F) (w : List (List F))
    (challenge : Challenges F) (rows : List (List F)) (tau : F) (h z : List F)
    (indices : List Nat) (batched masked : F[X]) : Prop where
  lowH : batched ∈ degreeLT F (param.geom.k + param.geom.s)
  lowZ : masked ∈ degreeLT F (2 * param.geom.k)
  isH : h = evalsAt domain.point (param.oraclePrefix (param.geom.k + param.geom.s)).cols batched
  isZ : z = evalsAt domain.point (param.oraclePrefix (2 * param.geom.k)).cols masked
  sum : ∑ col ∈ Ico param.geom.t param.geom.k, masked.eval (domain.point col) + tau = 0
  primary : expectedPrimary param.toPolygeroParam domain.toRangeInterpolatorFactory indices
    challenge.batchingSamples (queried w indices).flatten =
      (.ok (indices.map fun j => batched.eval (domain.point (param.geom.k + j))) : Exec String _)
  arithmetic : expectedArithmetic param.toPolygeroParam domain.toRangeInterpolatorFactory indices
    rows (queried w indices).flatten =
      (.ok (indices.map fun j => masked.eval (domain.point (param.geom.k + j))) : Exec String _)

/-- **The responses of an honest prover.** -/
theorem responses_honest (size : witness.length = param.geom.nw) (ts : QueryTranscript σ F)
    (few : b.length < 2 ^ 63)
    (inside : ∀ term ∈ a, term.c < b.length ∧ term.w < param.geom.nw)
    (satisfied : ∀ c < b.length, rowValue a witness c + b.getD c 0 = 0) (statement : Digest)
    (t : σ) : ∃ challenge t' rows h z,
      challenges ts param b.length statement t = (.ok (challenge, t') : Exec String _) ∧
      b.length ≤ challenge.alpha.length ∧
      batchConstraints param.toPolygeroParam b a challenge.alpha = (.ok rows : Exec String _) ∧
      prover.responses ts b a statement domain t = .ok ((h, z), t') ∧
      ∀ {indices : List Nat}, indices.length = param.geom.t → (∀ j ∈ indices, j < param.geom.n) →
        ∃ batched masked, Answers param domain prover.w challenge rows
          (dot (challenge.alpha.take b.length) b) h z indices batched masked := by
  have valid := setting.admitted.valid
  have positive := valid.queries_lt
  obtain ⟨challenge, t', drawn, alpha, samples, each⟩ := challenges_returns (ε := String) ts valid
    few statement t
  obtain ⟨rows, ran, count, long, balanced⟩ := batched_satisfied (ε := String) honest.rowsOf
    setting.admitted size inside alpha satisfied
  -- The responses do not depend on the queries.
  have first : ∀ j ∈ List.range param.geom.t, j < param.geom.n := fun j member => by
    have := List.mem_range.mp member
    have := valid.arithmetic
    omega
  have answers : ∀ {indices : List Nat}, indices.length = param.geom.t →
      (∀ j ∈ indices, j < param.geom.n) → ∃ h z batched masked,
        primaryResponse param.toPolygeroParam domain.toRangeInterpolatorFactory prover.w
          challenge.batchingSamples = (.ok h : Exec String _) ∧
        arithmeticResponse param.toPolygeroParam domain.toRangeInterpolatorFactory prover.w rows =
          (.ok z : Exec String _) ∧
        Answers param domain prover.w challenge rows (dot (challenge.alpha.take b.length) b) h z
          indices batched masked := by
    intro indices queries range
    obtain ⟨p, isP, ranH, expectedH⟩ := primary_agree (ε := String) exact setting.sized
      setting.capacity honest.committed queries range valid samples each
    obtain ⟨c, s, isC, selects, ranZ, expectedZ⟩ := arithmetic_agree (ε := String) exact
      setting.sized setting.capacity honest.committed queries range valid count long
    have lowB := batched_low honest.rowsOf (b := p) fun row below => by
      simpa using (isP row (samples ▸ below)).1
    have lowM := masked_low honest.rowsOf (by omega) (c := c) (s := s) (fun row below => by
      simpa using (isC row (count ▸ below)).1) selects
    have wide := valid.primary
    have wide' := valid.arithmetic
    refine ⟨_, _, _, _, ranH, ranZ, lowB, lowM, ?_, ?_, ?_, expectedH.trans ?_, expectedZ.trans ?_⟩
    · rw [evalsAt_oraclePrefix]
      exact List.map_congr_left fun j member =>
        honest.rowsOf.batchedAt_eq p ((List.mem_range.mp member).trans_le wide)
    · rw [evalsAt_oraclePrefix]
      exact List.map_congr_left fun j member =>
        honest.rowsOf.maskedAt_eq c s ((List.mem_range.mp member).trans_le wide')
    · rw [logical_sum honest.rowsOf count long isC selects, balanced]
    · exact congrArg _ (List.map_congr_left fun j member =>
        honest.rowsOf.batchedAt_eq p (range j member))
    · exact congrArg _ (List.map_congr_left fun j member =>
        honest.rowsOf.maskedAt_eq c s (range j member))
  obtain ⟨h, z, _, _, isH, isZ, _⟩ := answers List.length_range first
  refine ⟨challenge, t', rows, h, z, drawn, by omega, ran, ?_, fun queries range => ?_⟩
  · simp only [PolygeroProver.responses, honest.bound, drawn, isH, ran, isZ, ok_bind, pure_eq_ok]
  · obtain ⟨h', z', batched, masked, isH', isZ', answered⟩ := answers queries range
    obtain rfl := Except.ok.inj (isH.symm.trans isH')
    obtain rfl := Except.ok.inj (isZ.symm.trans isZ')
    exact ⟨batched, masked, answered⟩

/-- **The opened columns are those of the commitment.** -/
theorem authenticateColumns_accepts {indices : List Nat} (count : indices.length = param.geom.t)
    (inside : ∀ j ∈ indices, j < param.geom.n) (distinct : indices.Nodup) : ∃ rows opening,
    prover.openColumns indices = .ok (rows, opening) ∧
      materializeRows param.toPolygeroParam rows =
        (.ok (queried prover.w indices).flatten : Exec String _) ∧
      rows.length = param.geom.t * param.geom.transmittedRows ∧
      opening.nonce.length = param.geom.t ∧ opening.path.length ≤ param.geom.maxPathLen ∧
      ∀ {h z : List F}, authenticateColumns sha256 f param com ⟨h, z, rows, opening⟩ indices
        (queried prover.w indices).flatten = .ok () := by
  have valid := setting.admitted.valid
  have positive := valid.queries
  have columns : (leaves (columnHashes sha256 f param.context) param.geom.n prover.w
    prover.salts).length = param.geom.n := by simp [leaves]
  obtain ⟨root, path, mask, isRoot, generated, accepted, marks, size⟩ :=
    honest.built.opens (ε := String) (List.ne_nil_of_length_pos (count ▸ positive))
      (by rwa [columns]) distinct
  obtain rfl : com.root = root := Except.ok.inj (honest.root.symm.trans isRoot)
  rw [columns] at accepted marks size
  have columnsPos : param.geom.n ≠ 0 := by
    have := valid.queries_lt
    have := valid.arithmetic
    omega
  have short : path.length ≤ param.geom.maxPathLen := by
    have bound := size.le.trans (length_frontier_le marks inside)
    rwa [count, merkleHeapLen, if_neg columnsPos] at bound
  have sent : (transmitted param.toPolygeroParam prover.w indices 0
      param.geom.nrow).flatten.length = param.geom.t * param.geom.transmittedRows := by
    have each : ∀ row ∈ transmitted param.toPolygeroParam prover.w indices 0 param.geom.nrow,
        row.length = param.geom.t := fun row member => by
      obtain ⟨i, isIn, rfl⟩ := List.mem_map.mp member
      have bound : i < (queried prover.w indices).length := by
        rw [length_queried honest.committed]
        simpa using (List.mem_range'_1.mp (List.mem_of_mem_filter isIn)).2
      rw [List.getD_eq_getElem _ _ bound, length_of_mem_queried (List.getElem_mem bound), count]
    rw [length_flatten_of_eq each, length_transmitted, Nat.mul_comm]
  have gathered : (Blas.gather indices prover.salts : Exec String _) =
      .ok (indices.map fun j => prover.salts.getD j ⟨Vector.replicate 32 0⟩) :=
    Blas.gather_map _ fun j member => by
      have bound : j < prover.salts.length := by
        rw [honest.salts]
        exact inside j member
      rw [List.getElem?_eq_getElem bound, List.getD_eq_getElem _ _ bound]
  have exact := Machine.exact_of_valid (ε := String) valid
  have small := valid.opened_lt
  have fits : (mulSize indices.length param.geom.transmittedRows : Exec String Nat) = .ok _ :=
    mulSize_of_lt (by rw [count]; omega)
  refine ⟨_, ⟨indices.map fun j => prover.salts.getD j ⟨Vector.replicate 32 0⟩, path⟩, ?_,
    materializeRows_eq positive honest.committed inside count, sent,
    (List.length_map _).trans count, short, fun {h z} => ?_⟩
  · simp only [PolygeroProver.openColumns, honest.bound, exact.transmittedRows, fits,
      openRows_eq honest.committed inside, gathered, generated, ok_bind, pure_eq_ok]
  have hashed : ((List.range indices.length).mapM (fun query => do
      let j ← getAt indices query
      let column ← openedColumn param.toPolygeroParam (queried prover.w indices).flatten query
      let salt ← getAt (indices.map fun j => prover.salts.getD j ⟨Vector.replicate 32 0⟩) query
      pure (j, (columnHashes sha256 f param.context).leaf j column salt)) : Exec String _) =
      .ok (openedLeaves (leaves (columnHashes sha256 f param.context) param.geom.n prover.w
        prover.salts) indices) := by
    refine mapM_of_forall₂ (List.forall₂_iff_get.mpr ⟨by simp [openedLeaves], ?_⟩)
    intro query bound _
    have here : query < indices.length := by simpa using bound
    have place := inside _ (List.getElem_mem here)
    have salted : query <
        (indices.map fun j => prover.salts.getD j ⟨Vector.replicate 32 0⟩).length := by
      simpa using here
    simp only [List.get_eq_getElem, List.getElem_range, getAt_of_lt here, getAt_of_lt salted,
      openedColumn_eq positive count here, ok_bind, pure_eq_ok, openedLeaves, List.getElem_map]
    rw [List.getD_eq_getElem (leaves ..) _ (by simpa [leaves] using place)]
    simp only [leaves, List.getElem_map, List.getElem_range]
  rw [authenticateColumns]
  simp only [hashed, ok_bind]
  exact congrArg (mapErr _) accepted

/-- **An honest proof is accepted**, and both parties end with the same transcript. -/
theorem prove_verifies (size : witness.length = param.geom.nw)
    (known : param.domainId = domain.domainId) (ts : QueryTranscript σ F)
    (few : b.length < 2 ^ 63) (inside : ∀ term ∈ a, term.c < b.length ∧ term.w < param.geom.nw)
    (satisfied : ∀ c < b.length, rowValue a witness c + b.getD c 0 = 0) (statement : Digest)
    (t : σ) : ∃ proof t', prover.prove ts b t a statement domain = .ok (proof, t') ∧
      (⟨param, some com⟩ : PolygeroVerifier).verify sha256 f ts b com proof a statement t domain =
        .ok t' := by
  have valid := setting.admitted.valid
  obtain ⟨challenge, t', rows, h, z, drawn, long, ran, responded, answers⟩ :=
    responses_honest setting exact honest size ts few inside satisfied statement t
  obtain ⟨indices, t'', queried, count, distinct, range⟩ := queries_returns (ε := String) ts valid
    h z t'
  obtain ⟨batched, masked, answered⟩ := answers count range
  obtain ⟨received, opening, opened, restored, sent, salts, short, authentic⟩ :=
    authenticateColumns_accepts setting exact honest count range distinct
  have sizes := Machine.exact_of_valid (ε := String) valid
  have checked : Polygero.validate param.geom.nw b.length a = .ok () := check_of inside
  have shaped : (⟨h, z, received, opening⟩ : PolygeroProof F).Shaped param.geom :=
    ⟨valid, by simp [answered.isH, IndexRange.cols], by simp [answered.isZ, IndexRange.cols], sent,
      salts, short⟩
  have validated : Machine.validateProof param.geom ⟨h, z, received, opening⟩ = .ok () := by
    rw [Machine.validateProof_eq]
    exact PolygeroProof.validate_eq_ok.mpr shaped
  have primary := verifyPrimaryResponse_accepts setting exact range answered.lowH answered.primary
  have arithmetic := verifyArithmetic_accepts setting exact range answered.lowZ answered.sum
    answered.arithmetic
  rw [← answered.isH] at primary
  rw [← answered.isZ] at arithmetic
  have same : (challenge.alpha.take b.length).length = b.length := by
    rw [List.length_take]
    omega
  refine ⟨⟨h, z, received, opening⟩, t'', ?_, ?_⟩
  · simp only [PolygeroProver.prove, honest.bound, check_of known, checked, responded, queried,
      opened, ok_bind, pure_eq_ok]
  · simp only [PolygeroVerifier.verify, PolygeroVerifier.validate, check_of known, check_of,
      validated, mapErr_ok, checked, drawn, queried, sizes.nrow, sizes.packed, restored,
      authentic, primary, ran, slice_of_le (Nat.zero_le _) long, List.drop_zero, Nat.sub_zero,
      Blas.dot_eq same, arithmetic, ok_bind, pure_eq_ok]

end Run

end Parties

theorem tryNew_fields {nw : Nat}
    {products : List PolygeroProductConstraint} {config : PolygeroConfig}
    {domain : EvaluationDomain F} {param : BoundParam}
    (made : BoundParam.tryNew sha256 nw products config domain = .ok param) :
    param.geom.nw = nw ∧ param.products = products ∧ param.domainId = domain.domainId := by
  obtain ⟨plain, constructed, made⟩ := bind_eq_ok.mp made
  obtain rfl := Except.ok.inj made
  rw [tryNewMachine_eq] at constructed
  obtain ⟨isNw, isProducts⟩ := tryNew_eq constructed
  exact ⟨isNw, isProducts, rfl⟩

/-- **Polygero is complete.** Of any witness that satisfies the products, the prover's commitment is
received, and its proof of any linear constraints that the witness satisfies is accepted. -/
theorem polygero_complete [DecidableEq F] {sha256 : Bytes → Digest} (f : SerializableField F)
    {nw : Nat} {products : List PolygeroProductConstraint} {config : PolygeroConfig}
    {domain : EvaluationDomain F} {param : BoundParam}
    (made : BoundParam.tryNew sha256 nw products config domain = .ok param)
    (exact : domain.Exact sf) (sized : Sized domain.toRangeInterpolatorFactory)
    (tabled : domain.Tabled) (engine : SubfieldEngine rng sf)
    (satisfies : Satisfies sf param.toPolygeroParam domain.toRangeInterpolatorFactory
      subfieldBoundary witness) (ts : QueryTranscript σ F) (t : σ) (r : ρ) :
    ∃ prover com verifier t₁ r₁, PolygeroProver.commit sha256 f sf ts rng subfieldBoundary witness
        param t domain r = .ok ((prover, com), t₁, r₁) ∧
      (PolygeroVerifier.new param).receive ts com t = (verifier, t₁) ∧
      ∀ {b : List F} {a : List (PolygeroLinearTerm F)}, b.length < 2 ^ 63 →
        (∀ term ∈ a, term.c < b.length ∧ term.w < param.geom.nw) →
        (∀ c < b.length, rowValue a witness c + b.getD c 0 = 0) → ∀ statement,
        ∃ proof t₂, prover.prove ts b t₁ a statement domain = .ok (proof, t₂) ∧
          verifier.verify sha256 f ts b com proof a statement t₁ domain = .ok t₂ := by
  have setting := setting_of_tryNew made sized tabled
  have known := (tryNew_fields made).2.2
  obtain ⟨prover, com, r₁, committed, u, m, data, fstar, honest⟩ := commit_returns sha256 f
    setting exact engine known satisfies ts t r
  exact ⟨prover, com, _, _, r₁, committed, rfl, fun few inside satisfied statement =>
    prove_verifies setting exact honest satisfies.size known ts few inside satisfied statement _⟩

/-- Twelve rational points. -/
noncomputable def rationalDomain : EvaluationDomain ℚ := ⟨lagrange (fun j => (j : ℚ)) 12, [], 12⟩

/-- Every rational is in the subfield. -/
def rationalSubfield : Subfield ℚ := ⟨fun _ => true, 0, fun _ => [], fun _ => .ok 0, fun _ => rfl⟩

theorem rationalDomain_exact : rationalDomain.Exact rationalSubfield :=
  lagrange_exact Nat.cast_injective.injOn rationalSubfield

theorem rationalDomain_tabled : rationalDomain.Tabled := fun can => by
  have ranges := of_decide_eq_true can
  exact ⟨ranges.2.1, ranges.2.2.2⟩

/-- An engine that draws ones. -/
theorem rationalEngine : SubfieldEngine (⟨fun len r => (List.replicate len 0, r), fun r => (1, r),
    fun r => (1, r)⟩ : RandomEngine Unit ℚ) rationalSubfield :=
  ⟨fun _ _ => List.length_replicate, fun _ => rfl, rfl⟩

/-- A transcript that samples zeros. -/
def zeroTranscript : QueryTranscript Unit ℚ :=
  ⟨⟨fun _ t => t, fun _ t => t, fun _ t => t, fun t => (0, t)⟩, fun _ t => (0, t),
    fun _ positive => positive⟩

theorem polygero_complete_one : ∃ (prover : PolygeroProver ℚ) (com : PolygeroCommitment)
    (verifier : PolygeroVerifier),
    (PolygeroVerifier.new ⟨⟨⟨1, 1, 4, 1, 8, 1⟩, [⟨0, 0, 0⟩]⟩, [], default⟩).receive zeroTranscript
        com () = (verifier, ()) ∧
      ∃ proof, prover.prove zeroTranscript [-1] () [⟨0, 0, 1⟩] default rationalDomain =
          .ok (proof, ()) ∧
        verifier.verify (fun _ => default)
          ⟨false, 0, fun _ => [], fun _ => .ok 0, [], fun _ => rfl⟩ zeroTranscript [-1] com proof
          [⟨0, 0, 1⟩] default () rationalDomain = .ok () := by
  have made : BoundParam.tryNew (fun _ => default) 1 [⟨0, 0, 0⟩] ⟨4, 1, 8, 1⟩ rationalDomain =
    .ok ⟨⟨⟨1, 1, 4, 1, 8, 1⟩, [⟨0, 0, 0⟩]⟩, [], default⟩ := rfl
  have satisfies : Satisfies rationalSubfield ⟨⟨1, 1, 4, 1, 8, 1⟩, [⟨0, 0, 0⟩]⟩
      rationalDomain.toRangeInterpolatorFactory 1 [1] :=
    ⟨rfl, le_rfl, fun _ _ => rfl, fun _ _ _ => rfl, by simp⟩
  obtain ⟨prover, com, verifier, _, _, _, received, complete⟩ := polygero_complete
    ⟨false, 0, fun _ => [], fun _ => .ok 0, [], fun _ => rfl⟩ made rationalDomain_exact
    lagrange_sized rationalDomain_tabled rationalEngine satisfies zeroTranscript () ()
  obtain ⟨proof, _, proved, verified⟩ := complete (b := [-1]) (a := [⟨0, 0, 1⟩]) (by decide)
    (by simp) (by simp [rowValue, entriesValue]) default
  exact ⟨prover, com, verifier, received, proof, proved, verified⟩

end Longfellow.Polygero
