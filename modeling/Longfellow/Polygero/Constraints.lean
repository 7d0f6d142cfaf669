/-
**Batched constraints** (`runtime/polygero/src/constraints.rs`, with the row layout of Ligero).

The weighted equations and the weighted equalities of the product copies with their originals are one
vector of coefficients for the committed values. Applied to any tableau whose witness slots hold the
witness and whose copy slots hold any values at all, it gives the weighted left sides of the
equations plus the weighted differences of the copies.

* `batchConstraints_identity` — **the identity for the Polygero rows**.
-/

import Longfellow.Lib.Chunks
import Longfellow.Lib.Sizes
import Longfellow.Ligero.Param
import Longfellow.Polygero.Layout

namespace Longfellow

open Lib Finset

variable {ε E : Type} [CommRing E] {alpha : List E}

/-! ### Differences of copies -/

/-- The weighted differences of the three copies of a product and the witness values they are copies
of. -/
def copyDifference (witness : List E) (originals : Nat × Nat × Nat) (weights copies : E × E × E) : E :=
  weights.1 * (copies.1 - witness.getD originals.1 0) +
    weights.2.1 * (copies.2.1 - witness.getD originals.2.1 0) +
    weights.2.2 * (copies.2.2 - witness.getD originals.2.2 0)

/-- The weighted left sides of the equations. -/
def weightedRows (alpha witness : List E) (a : List (SparseTerm E)) (equations : Nat) : E :=
  ∑ c ∈ range equations, alpha.getD c 0 * rowValue a witness c

theorem weightedValue_eq (witness : List E) {a : List (SparseTerm E)}
    {equations : Nat} (inside : ∀ term ∈ a, term.c < equations) :
    weightedValue alpha witness a = weightedRows alpha witness a equations := by
  induction a with
  | nil => simp [weightedValue, weightedRows, rowValue, entriesValue]
  | cons term a ih =>
    have row := inside term (List.mem_cons_self ..)
    have later := ih fun other member => inside other (List.mem_cons_of_mem _ member)
    have split : weightedRows alpha witness (term :: a) equations =
        alpha.getD term.c 0 * (term.k * witness.getD term.w 0) +
          weightedRows alpha witness a equations := by
      unfold weightedRows
      simp only [rowValue_cons, mul_add, sum_add_distrib, mul_ite, mul_zero]
      rw [sum_ite_eq, if_pos (mem_range.mpr row)]
    rw [split, ← later, weightedValue, weightedValue, List.map_cons, List.sum_cons]
    ring

end Longfellow

namespace Longfellow.Polygero

open Lib Finset PolygeroParam

variable {ε E : Type} [CommRing E]

/-- Check the indices of the equations and of the witness. -/
def validate (nw equations : Nat) (a : List (PolygeroLinearTerm E)) : Exec String Unit :=
  check (∀ term ∈ a, term.c < equations ∧ term.w < nw) "linear constraint index out of bounds"

/-- Three consecutive weights for each product. -/
def asTriples : List E → List (E × E × E)
  | x :: y :: z :: rest => (x, y, z) :: asTriples rest
  | _ => []

/-- Add a term at its witness index, with the weight of its equation. -/
def addTerm (alpha coefficients : List E) (term : PolygeroLinearTerm E) : Exec ε (List E) := do
  let weight ← getAt alpha term.c
  addAt coefficients term.w (weight * term.k)

/-- Subtract the weights of a product at its originals. -/
def subtractOriginals (products : List PolygeroProductConstraint) (copyWeights : List (E × E × E))
    (coefficients : List E) (i : Nat) : Exec ε (List E) := do
  let product ← getAt products i
  let (wx, wy, wz) ← getAt copyWeights i
  let coefficients ← addAt coefficients product.x (-wx)
  let coefficients ← addAt coefficients product.y (-wy)
  addAt coefficients product.z (-wz)

/-- The logical samples of the batched constraints, one row for each data row. -/
def batchConstraints (param : PolygeroParam) (b : List E) (a : List (PolygeroLinearTerm E))
    (alpha : List E) : Exec ε (List (List E)) := do
  let g := param.geom
  let weights ← slice alpha b.length (b.length + 3 * g.nq)
  let copyWeights := asTriples weights
  let coefficients ← a.foldlM (addTerm alpha) (List.replicate g.nw 0)
  let coefficients ← (List.range g.nq).foldlM (subtractOriginals param.products copyWeights)
    coefficients
  ensure (0 < g.ordinaryWidth) "chunk size must be non-zero"
  let rows := (chunks g.ordinaryWidth coefficients).map (placeBlock g.t g.k)
  if g.nq ≠ 0 then do
    ensure (0 < g.productWidth) "chunk size must be non-zero"
    let triples := (chunks g.productWidth copyWeights).flatMap fun group =>
      [placeBlock g.t g.k (group.map fun weight => weight.1),
        placeBlock g.t g.k (group.map fun weight => weight.2.1),
        placeBlock g.t g.k (group.map fun weight => weight.2.2)]
    pure (rows ++ triples)
  else pure rows

/-- The data rows hold the witness and some values in the slots of the copies. -/
structure LaidOut (param : PolygeroParam) (witness : List E) (copies : List (E × E × E))
    (rows : Nat → Nat → E) : Prop where
  original : ∀ i < param.geom.nw, rows (i / param.geom.ordinaryWidth)
    (param.geom.t + i % param.geom.ordinaryWidth) = witness.getD i 0
  x : ∀ i < param.geom.nq, rows (param.geom.ordinaryRows + 3 * (i / param.geom.productWidth))
    (param.geom.t + i % param.geom.productWidth) = (copies.getD i 0).1
  y : ∀ i < param.geom.nq, rows (param.geom.ordinaryRows + (3 * (i / param.geom.productWidth) + 1))
    (param.geom.t + i % param.geom.productWidth) = (copies.getD i 0).2.1
  z : ∀ i < param.geom.nq, rows (param.geom.ordinaryRows + (3 * (i / param.geom.productWidth) + 2))
    (param.geom.t + i % param.geom.productWidth) = (copies.getD i 0).2.2

omit [CommRing E] in
theorem length_asTriples {n : Nat} {weights : List E} (size : weights.length = 3 * n) :
    (asTriples weights).length = n := by
  induction n generalizing weights with
  | zero =>
    obtain rfl := List.eq_nil_of_length_eq_zero size
    rfl
  | succ n ih => match weights with
    | x :: y :: z :: rest =>
      rw [asTriples, List.length_cons, ih]
      simp only [List.length_cons] at size
      omega

theorem getD_asTriples {n : Nat} {weights : List E} (size : weights.length = 3 * n) (i : Nat) :
    (asTriples weights).getD i 0 =
      (weights.getD (3 * i) 0, weights.getD (3 * i + 1) 0, weights.getD (3 * i + 2) 0) := by
  induction n generalizing weights i with
  | zero =>
    obtain rfl := List.eq_nil_of_length_eq_zero size
    simp [asTriples]
    rfl
  | succ n ih => match weights with
    | x :: y :: z :: rest => cases i with
      | zero => rfl
      | succ i =>
        simp only [List.length_cons] at size
        exact ih (show rest.length = 3 * n by omega) i

/-- The three originals of a product. -/
def originals (product : PolygeroProductConstraint) : Nat × Nat × Nat :=
  (product.x, product.y, product.z)

/-- The weights of product `i`: three of them behind those of the equations. -/
def copyWeights (alpha : List E) (equations i : Nat) : E × E × E :=
  (alpha.getD (equations + 3 * i) 0, alpha.getD (equations + (3 * i + 1)) 0,
    alpha.getD (equations + (3 * i + 2)) 0)

/-- The weighted sum of the originals of a product. -/
def originalSum (witness : List E) (originals : Nat × Nat × Nat) (weights : E × E × E) : E :=
  weights.1 * witness.getD originals.1 0 + weights.2.1 * witness.getD originals.2.1 0 +
    weights.2.2 * witness.getD originals.2.2 0

variable {weights : List (E × E × E)} {witness : List E} {i : Nat}

theorem subtractOriginals_returns {products : List PolygeroProductConstraint}
    (isProduct : i < products.length) (weighted : i < weights.length)
    (inside : ∀ p ∈ products, p.x < witness.length ∧ p.y < witness.length ∧ p.z < witness.length)
    {coefficients : List E} (size : coefficients.length = witness.length) :
    ∃ next, (subtractOriginals products weights coefficients i : Exec ε _) = .ok next ∧
      next.length = witness.length ∧
      dot next witness = dot coefficients witness -
        originalSum witness (originals products[i]) (weights.getD i 0) := by
  obtain ⟨inX, inY, inZ⟩ := inside products[i] (List.getElem_mem isProduct)
  have value : ∀ {j}, j < witness.length → witness[j]? = some (witness.getD j 0) := fun bound => by
    rw [List.getD_eq_getElem _ _ bound, List.getElem?_eq_getElem bound]
  have weight : weights.getD i 0 = weights[i] := List.getD_eq_getElem _ _ weighted
  obtain ⟨a₁, addX, size₁, sum₁⟩ := addAt_returns (ε := ε) (-weights[i].1) size (value inX)
  obtain ⟨a₂, addY, size₂, sum₂⟩ := addAt_returns (ε := ε) (-weights[i].2.1) size₁ (value inY)
  obtain ⟨a₃, addZ, size₃, sum₃⟩ := addAt_returns (ε := ε) (-weights[i].2.2) size₂ (value inZ)
  refine ⟨a₃, ?_, size₃, ?_⟩
  · rw [subtractOriginals, getAt_of_lt isProduct, ok_bind, getAt_of_lt weighted, ok_bind]
    simp only [addX, addY, addZ, ok_bind]
  · rw [sum₃, sum₂, sum₁, originalSum, weight]
    simp only [originals]
    ring

variable {a : List (PolygeroLinearTerm E)} {param : PolygeroParam}

theorem coefficients_returns (admitted : param.Admitted)
    (size : witness.length = param.geom.nw) {equations : Nat}
    (rows : ∀ term ∈ a, term.c < equations ∧ term.w < param.geom.nw)
    (long : equations ≤ alpha.length) (weighted : weights.length = param.geom.nq) :
    ∃ start coefficients, (a.foldlM (addTerm alpha) (List.replicate param.geom.nw 0) : Exec ε _) =
        .ok start ∧
      ((List.range param.geom.nq).foldlM (subtractOriginals param.products weights) start :
        Exec ε _) = .ok coefficients ∧ coefficients.length = param.geom.nw ∧
      dot coefficients witness = weightedRows alpha witness a equations -
        ∑ i ∈ range param.geom.nq, originalSum witness
          (originals (param.products.getD i ⟨0, 0, 0⟩)) (weights.getD i 0) := by
  have zeros : (List.replicate param.geom.nw (0 : E)).length = witness.length := by
    rw [List.length_replicate, size]
  have each : ∀ term ∈ a, ∀ z, (addTerm alpha z term : Exec ε _) =
      addAt z term.w (term.k * alpha.getD term.c 0) := fun term member z => by
    have bound : term.c < alpha.length := (rows term member).1.trans_le long
    rw [addTerm, getAt_of_lt bound, ok_bind, List.getD_eq_getElem _ _ bound, mul_comm]
  obtain ⟨start, ran, sizeS, sum⟩ := foldlM_weighted (x := witness) zeros each
    (fun term member => by
      have bound : term.w < witness.length := size ▸ (rows term member).2
      rw [List.getD_eq_getElem _ _ bound, List.getElem?_eq_getElem bound])
  rw [dot_replicate_zero, zero_add,
    weightedValue_eq witness fun term member => (rows term member).1] at sum
  obtain ⟨coefficients, subtracted, sizeC, total⟩ := foldlM_range_returns (ε := ε)
    (f := subtractOriginals param.products weights)
    (fun k coefficients => coefficients.length = witness.length ∧
      dot coefficients witness = weightedRows alpha witness a equations -
        ∑ i ∈ range k, originalSum witness (originals (param.products.getD i ⟨0, 0, 0⟩))
          (weights.getD i 0)) (n := param.geom.nq) (s := start) ⟨sizeS, by simpa using sum⟩
    fun {i s} below ⟨sizeS, sum⟩ => by
      have isProduct : i < param.products.length := admitted.count.symm ▸ below
      obtain ⟨next, ran, sizeN, step⟩ := subtractOriginals_returns (ε := ε) isProduct
        (weighted.symm ▸ below) (fun p member => size.symm ▸ admitted.inside p member) sizeS
      refine ⟨next, ran, sizeN, ?_⟩
      rw [step, sum, sum_range_succ, List.getD_eq_getElem _ _ isProduct]
      ring
  exact ⟨start, coefficients, ran, subtracted, sizeC.trans size, total⟩

theorem sum_copyRows {width : Nat} (positive : 0 < width) (reserved total : Nat)
    (weights : List (E × E × E)) (part : E × E × E → E) (zero : part 0 = 0) (rows : Nat → Nat → E) :
    ∑ i ∈ range (divCeil weights.length width),
        against (placeBlock reserved total ((chunk width weights i).map part)) (rows i) =
      ∑ i ∈ range weights.length, part (weights.getD i 0) *
        rows (i / width) (reserved + i % width) := by
  have blocks := sum_chunks positive (weights.map part) fun i j => rows i (reserved + j)
  rw [List.length_map] at blocks
  simp only [against_placeBlock, ← chunk_map, blocks]
  refine sum_congr rfl fun i member => ?_
  rw [← zero, List.getD_map]

/-- **The identity for the Polygero rows.** -/
theorem batchConstraints_identity (admitted : param.Admitted)
    (size : witness.length = param.geom.nw) {copies : List (E × E × E)} {rows : Nat → Nat → E}
    (laidOut : LaidOut param witness copies rows) {b : List E}
    (inside : ∀ term ∈ a, term.c < b.length ∧ term.w < param.geom.nw)
    (long : b.length + 3 * param.geom.nq ≤ alpha.length) :
    ∃ batched, (batchConstraints param b a alpha : Exec ε _) = .ok batched ∧
      batched.length = param.geom.dataRows ∧ (∀ row ∈ batched, row.length = param.geom.k) ∧
      rowsAgainst batched rows = weightedRows alpha witness a b.length +
        ∑ i ∈ range param.geom.nq, copyDifference witness
          (originals (param.products.getD i ⟨0, 0, 0⟩)) (copyWeights alpha b.length i)
          (copies.getD i 0) := by
  set g := param.geom with geom
  have sliced : (slice alpha b.length (b.length + 3 * g.nq) : Exec ε _) =
      .ok ((alpha.drop b.length).take (3 * g.nq)) := by
    rw [slice_of_le (Nat.le_add_right ..) long, Nat.add_sub_cancel_left]
  set weights := asTriples ((alpha.drop b.length).take (3 * g.nq)) with isWeights
  have three : ((alpha.drop b.length).take (3 * g.nq)).length = 3 * g.nq := by
    rw [List.length_take, List.length_drop]
    omega
  have weighted : weights.length = g.nq := length_asTriples three
  have weight : ∀ i < g.nq, weights.getD i 0 = copyWeights alpha b.length i := by
    intro i below
    have entry : ∀ j < 3 * g.nq, ((alpha.drop b.length).take (3 * g.nq)).getD j 0 =
        alpha.getD (b.length + j) 0 := by
      intro j inside
      rw [List.getD_eq_getElem?_getD, List.getElem?_take_of_lt inside, List.getElem?_drop,
        ← List.getD_eq_getElem?_getD]
    rw [isWeights, getD_asTriples three, entry _ (by omega), entry _ (by omega), entry _ (by omega)]
    rfl
  obtain ⟨start, coefficients, added, subtracted, sizeC, total⟩ := coefficients_returns (ε := ε)
    admitted size inside (show b.length ≤ alpha.length by omega) weighted
  have wide := admitted.valid.ordinaryWidth_pos
  rw [← geom] at added subtracted sizeC total wide
  -- The ordinary rows hold the coefficients against the witness.
  have ordinary : rowsAgainst ((chunks g.ordinaryWidth coefficients).map (placeBlock g.t g.k)) rows =
      dot coefficients witness := by
    have blocks := sum_chunks wide coefficients fun i j => rows i (g.t + j)
    rw [chunks, List.map_map, rowsAgainst_map_range, ← against_getD]
    simp only [Function.comp_apply, against_placeBlock, blocks]
    refine sum_congr rfl fun i member => ?_
    rw [laidOut.original i (sizeC ▸ mem_range.mp member)]
  have ordinarySize : ((chunks g.ordinaryWidth coefficients).map (placeBlock g.t g.k)).length =
      g.ordinaryRows := by
    rw [List.length_map, length_chunks, sizeC]
    rfl
  have ordinaryLong : ∀ row ∈ (chunks g.ordinaryWidth coefficients).map (placeBlock g.t g.k),
      row.length = g.k := by
    intro row member
    obtain ⟨block, isBlock, rfl⟩ := List.mem_map.mp member
    have few := length_le_of_mem_chunks isBlock
    have below : g.t < g.k := admitted.valid.queries_lt
    rw [PolygeroGeometry.ordinaryWidth] at few
    exact length_placeBlock (by omega)
  have run : (batchConstraints param b a alpha : Exec ε _) = (do
      let rows := (chunks g.ordinaryWidth coefficients).map (placeBlock g.t g.k)
      if g.nq ≠ 0 then do
        ensure (0 < g.productWidth) "chunk size must be non-zero"
        let triples := (chunks g.productWidth weights).flatMap fun group =>
          [placeBlock g.t g.k (group.map fun weight => weight.1),
            placeBlock g.t g.k (group.map fun weight => weight.2.1),
            placeBlock g.t g.k (group.map fun weight => weight.2.2)]
        pure (rows ++ triples)
      else pure rows) := by
    rw [batchConstraints]
    simp only [← geom, sliced, ok_bind, ← isWeights, added, subtracted, ensure_of wide]
  rw [run]
  by_cases none : g.nq = 0
  · refine ⟨_, if_neg (not_not.mpr none), ?_, ordinaryLong, ?_⟩
    · rw [ordinarySize, PolygeroGeometry.dataRows, PolygeroGeometry.productGroups, if_pos none]
      rfl
    · rw [ordinary, total, none]
      simp
  · have narrow := admitted.valid.productWidth_pos (Nat.pos_of_ne_zero none)
    have groups : g.productGroups = divCeil weights.length g.productWidth := by
      rw [PolygeroGeometry.productGroups, if_neg none, weighted]
    refine ⟨_, (if_pos none).trans (by rw [ensure_of narrow, ok_bind, pure_eq_ok]), ?_, ?_, ?_⟩
    · rw [List.length_append, ordinarySize, List.length_flatMap, PolygeroGeometry.dataRows, groups]
      simp [mul_comm]
    · intro row member
      rcases List.mem_append.mp member with isOrdinary | isTriple
      · exact ordinaryLong row isOrdinary
      · obtain ⟨group, isGroup, isPart⟩ := List.mem_flatMap.mp isTriple
        have few := length_le_of_mem_chunks isGroup
        have half : g.productDimension ≤ g.k := divCeil_le _ Nat.two_pos
        have fits : g.t < g.productDimension := admitted.valid.products (Nat.pos_of_ne_zero none)
        rw [PolygeroGeometry.productWidth] at few
        have part : ∀ value : E × E × E → E,
            (placeBlock g.t g.k (group.map value)).length = g.k := fun value =>
          length_placeBlock (by rw [List.length_map]; omega)
        simp only [List.mem_cons, List.not_mem_nil, or_false] at isPart
        rcases isPart with rfl | rfl | rfl
        · exact part _
        · exact part _
        · exact part _
    · rw [rowsAgainst_append, ordinary, total, ordinarySize, chunks, List.flatMap_map,
        rowsAgainst_triples, sum_add_distrib, sum_add_distrib]
      have first := sum_copyRows narrow g.t g.k weights (fun weight => weight.1) rfl
        fun i => rows (g.ordinaryRows + 3 * i)
      have second := sum_copyRows narrow g.t g.k weights (fun weight => weight.2.1) rfl
        fun i => rows (g.ordinaryRows + (3 * i + 1))
      have third := sum_copyRows narrow g.t g.k weights (fun weight => weight.2.2) rfl
        fun i => rows (g.ordinaryRows + (3 * i + 2))
      rw [first, second, third, weighted, ← sum_add_distrib, ← sum_add_distrib, sub_add,
        ← sum_sub_distrib, sub_eq_add_neg, ← sum_neg_distrib]
      congr 1
      refine sum_congr rfl fun i member => ?_
      have below := mem_range.mp member
      rw [laidOut.x i below, laidOut.y i below, laidOut.z i below, weight i below, originalSum,
        copyDifference]
      ring

end Longfellow.Polygero

namespace Longfellow.Ligero

open Lib Finset

variable {ε E : Type} [CommRing E]

/-- The tableau holds the witness and some values in the slots of the copies. -/
structure LaidOut (param : LigeroParam) (witness : List E) (copies : List (E × E × E))
    (tableau : Nat → Nat → E) : Prop where
  original : ∀ i < param.nw,
    tableau (param.iw + i / param.w) (param.geom.r + i % param.w) = witness.getD i 0
  x : ∀ i < param.nq,
    tableau (param.iq + i / param.w) (param.geom.r + i % param.w) = (copies.getD i 0).1
  y : ∀ i < param.nq, tableau (param.iq + param.nqtriples + i / param.w)
    (param.geom.r + i % param.w) = (copies.getD i 0).2.1
  z : ∀ i < param.nq, tableau (param.iq + 2 * param.nqtriples + i / param.w)
    (param.geom.r + i % param.w) = (copies.getD i 0).2.2

/-- The vector of coefficients applied to the slots of the tableau, row by row. -/
def tableauSum (param : LigeroParam) (a : List E) (tableau : Nat → Nat → E) : E :=
  ∑ row ∈ range param.nwqrow, ∑ col ∈ range param.w,
    a.getD (row * param.w + col) 0 * tableau (param.iw + row) (param.geom.r + col)

/-- The slots of the tableau in the order of the vector. -/
def slots (param : LigeroParam) (tableau : Nat → Nat → E) : List E :=
  (List.range (param.nwqrow * param.w)).map fun p =>
    tableau (param.iw + p / param.w) (param.geom.r + p % param.w)

/-- The three originals of a product. -/
def originals (l : LigeroQuadraticConstraint) : Nat × Nat × Nat := (l.x, l.y, l.z)

variable {param : LigeroParam} {domain : RangeInterpolatorFactory E} {tableau : Nat → Nat → E}

omit [CommRing E] in
theorem getElem?_slots {p : Nat} (inside : p < param.nwqrow * param.w) :
    (slots param tableau)[p]? =
      some (tableau (param.iw + p / param.w) (param.geom.r + p % param.w)) := by
  rw [slots, List.getElem?_map, List.getElem?_range inside, Option.map_some]

theorem dot_slots (positive : 0 < param.w) {a : List E} (size : a.length = param.nwqrow * param.w) :
    dot a (slots param tableau) = tableauSum param a tableau := by
  rw [← against_getD, against, size, ← sum_rows, tableauSum]
  refine sum_congr rfl fun row isRow => sum_congr rfl fun col isCol => ?_
  have inside : row * param.w + col < param.nwqrow * param.w := by
    have next := Nat.mul_le_mul_right param.w (mem_range.mp isRow : row + 1 ≤ param.nwqrow)
    have := mem_range.mp isCol
    rw [Nat.succ_mul] at next
    omega
  have place : (row * param.w + col) / param.w = row ∧ (row * param.w + col) % param.w = col := by
    rw [mul_comm, Nat.mul_add_div positive, Nat.mul_add_mod,
      Nat.div_eq_of_lt (mem_range.mp isCol), Nat.mod_eq_of_lt (mem_range.mp isCol)]
    exact ⟨rfl, rfl⟩
  have entry : (slots param tableau).getD (row * param.w + col) 0 =
      tableau (param.iw + row) (param.geom.r + col) := by
    rw [List.getD_eq_getElem?_getD, getElem?_slots inside, place.1, place.2, Option.getD_some]
  rw [entry]

omit [CommRing E] in
theorem slot_copy {base : Nat} (positive : 0 < param.w)
    (inside : base * param.w + i < param.nwqrow * param.w) :
    (slots param tableau)[base * param.w + i]? =
      some (tableau (param.iw + (base + i / param.w)) (param.geom.r + i % param.w)) := by
  rw [getElem?_slots inside, mul_comm, Nat.mul_add_div positive, Nat.mul_add_mod]

omit [CommRing E] in
theorem copy_inside (admitted : param.Admitted domain) (isProduct : i < param.nq)
    {part : Nat} (isPart : part < 3) :
    (param.nwrow + part * param.nqtriples) * param.w + i < param.nwqrow * param.w := by
  have rows := le_divCeil_mul param.nq admitted.w_pos
  rw [← admitted.nqtriples] at rows
  have three : (part + 1) * param.nqtriples ≤ 3 * param.nqtriples := Nat.mul_le_mul_right _ isPart
  calc (param.nwrow + part * param.nqtriples) * param.w + i
      < (param.nwrow + part * param.nqtriples) * param.w + param.nqtriples * param.w := by omega
    _ = (param.nwrow + (part + 1) * param.nqtriples) * param.w := by ring
    _ ≤ param.nwqrow * param.w := by
        rw [admitted.nwqrow]
        exact Nat.mul_le_mul_right _ (Nat.add_le_add_left three _)

variable {copies alphaq : List (E × E × E)} {lqc : List LigeroQuadraticConstraint}

variable {witness : List E} (admitted : param.Admitted domain)
  (laidOut : LaidOut param witness copies tableau) (constrained : param.nq ≤ lqc.length)
  (inside : ∀ l ∈ lqc, l.x < param.nw ∧ l.y < param.nw ∧ l.z < param.nw)
include admitted laidOut constrained inside

/-- **One product** adds the weighted differences of its copies. -/
theorem addCopies_difference (weights : param.nq ≤ alphaq.length)
    (isProduct : i < param.nq) {a : List E} (size : a.length = (slots param tableau).length) :
    ∃ a', (addCopies param lqc alphaq a i : Exec ε _) = .ok a' ∧
      a'.length = (slots param tableau).length ∧
      dot a' (slots param tableau) = dot a (slots param tableau) + copyDifference witness
        (originals (lqc.getD i ⟨0, 0, 0⟩)) (alphaq.getD i 0) (copies.getD i 0) := by
  have isConstraint : i < lqc.length := isProduct.trans_le constrained
  have weighted : i < alphaq.length := isProduct.trans_le weights
  obtain ⟨inX, inY, inZ⟩ := inside lqc[i] (List.getElem_mem isConstraint)
  have pos := admitted.w_pos
  have rows := le_divCeil_mul param.nw pos
  rw [← admitted.nwrow] at rows
  have room : param.nwrow * param.w ≤ param.nwqrow * param.w := by
    rw [admitted.nwqrow]
    exact Nat.mul_le_mul_right _ (Nat.le_add_right ..)
  have original : ∀ {j}, j < param.nw → (slots param tableau)[j]? = some (witness.getD j 0) := by
    intro j bound
    rw [getElem?_slots (by omega), laidOut.original j bound]
  have base : param.iw + param.nwrow = param.iq := by rw [admitted.iw, admitted.iq]
  have copyX : (slots param tableau)[param.nwrow * param.w + i]? = some (copies.getD i 0).1 := by
    have inside := copy_inside admitted isProduct (show 0 < 3 by decide)
    rw [Nat.zero_mul, Nat.add_zero] at inside
    rw [slot_copy pos inside, ← Nat.add_assoc, base, laidOut.x i isProduct]
  have copyY : (slots param tableau)[param.nwrow * param.w + param.nqtriples * param.w + i]? =
      some (copies.getD i 0).2.1 := by
    have inside := copy_inside admitted isProduct (show 1 < 3 by decide)
    rw [Nat.one_mul] at inside
    rw [← Nat.add_mul, slot_copy pos inside, ← Nat.add_assoc, ← Nat.add_assoc, base,
      laidOut.y i isProduct]
  have copyZ : (slots param tableau)[param.nwrow * param.w + param.nqtriples * param.w +
      param.nqtriples * param.w + i]? = some (copies.getD i 0).2.2 := by
    have inside := copy_inside admitted isProduct (show 2 < 3 by decide)
    have flat : param.nwrow * param.w + param.nqtriples * param.w + param.nqtriples * param.w =
        (param.nwrow + 2 * param.nqtriples) * param.w := by ring
    rw [flat, slot_copy pos inside, ← Nat.add_assoc, ← Nat.add_assoc, base, laidOut.z i isProduct]
  obtain ⟨a₁, ran₁, size₁, sum₁⟩ := addAt_returns (ε := ε) alphaq[i].1 size copyX
  obtain ⟨a₂, ran₂, size₂, sum₂⟩ := addAt_returns (ε := ε) (-alphaq[i].1) size₁ (original inX)
  obtain ⟨a₃, ran₃, size₃, sum₃⟩ := addAt_returns (ε := ε) alphaq[i].2.1 size₂ copyY
  obtain ⟨a₄, ran₄, size₄, sum₄⟩ := addAt_returns (ε := ε) (-alphaq[i].2.1) size₃ (original inY)
  obtain ⟨a₅, ran₅, size₅, sum₅⟩ := addAt_returns (ε := ε) alphaq[i].2.2 size₄ copyZ
  obtain ⟨a₆, ran₆, size₆, sum₆⟩ := addAt_returns (ε := ε) (-alphaq[i].2.2) size₅ (original inZ)
  refine ⟨a₆, ?_, size₆, ?_⟩
  · simp only [addCopies, getAt_of_lt isConstraint, ok_bind, ensure_of inX, ensure_of inY,
      ensure_of inZ, getAt_of_lt weighted, ran₁, ran₂, ran₃, ran₄, ran₅, ran₆]
  · rw [sum₆, sum₅, sum₄, sum₃, sum₂, sum₁, List.getD_eq_getElem _ _ isConstraint,
      List.getD_eq_getElem _ _ weighted, copyDifference]
    simp only [originals]
    ring

/-- **The identity for the Ligero tableau.** -/
theorem innerProductVector_identity (weights : param.nq ≤ alphaq.length)
    {llterm : List (LigeroLinearConstraint E)} {alphal : List E}
    (rows : ∀ term ∈ llterm, term.c < alphal.length ∧ term.w < param.nw) :
    ∃ a, (innerProductVector param llterm alphal lqc alphaq : Exec ε _) = .ok a ∧
      a.length = param.nwqrow * param.w ∧
      tableauSum param a tableau = weightedRows alphal witness llterm alphal.length +
        ∑ i ∈ range param.nq, copyDifference witness (originals (lqc.getD i ⟨0, 0, 0⟩))
          (alphaq.getD i 0) (copies.getD i 0) := by
  have slotsSize : (slots param tableau).length = param.nwqrow * param.w := by simp [slots]
  have zeros : (List.replicate (param.nwqrow * param.w) (0 : E)).length =
      (slots param tableau).length := by rw [List.length_replicate, slotsSize]
  have pos := admitted.w_pos
  have enough := le_divCeil_mul param.nw pos
  rw [← admitted.nwrow] at enough
  have room : param.nwrow * param.w ≤ param.nwqrow * param.w := by
    rw [admitted.nwqrow]
    exact Nat.mul_le_mul_right _ (Nat.le_add_right ..)
  have each : ∀ term ∈ llterm, ∀ z, (addTerm param alphal z term : Exec ε _) =
      addAt z term.w (term.k * alphal.getD term.c 0) := fun term member z => by
    obtain ⟨row, column⟩ := rows term member
    simp only [addTerm, ensure_of row, ensure_of column, ok_bind, getAt_of_lt row,
      List.getD_eq_getElem _ _ row]
  obtain ⟨a, ran, sizeA, sum⟩ := foldlM_weighted (x := witness) zeros each
    (fun term member => by
      have column := (rows term member).2
      rw [getElem?_slots (by omega), laidOut.original _ column])
  rw [dot_replicate_zero, zero_add,
    weightedValue_eq witness fun term member => (rows term member).1] at sum
  set difference : Nat → E := fun i => copyDifference witness (originals (lqc.getD i ⟨0, 0, 0⟩))
    (alphaq.getD i 0) (copies.getD i 0) with isDifference
  -- After a number of complete triples of rows, their products are done.
  obtain ⟨a', copied, sizeA', total⟩ := foldlM_range_returns (ε := ε)
    (f := fun a i => (List.range (tripleWidth param i)).foldlM (fun a j =>
      addCopies param lqc alphaq a (j + i * param.w)) a)
    (fun i a' => a'.length = (slots param tableau).length ∧ dot a' (slots param tableau) =
      dot a (slots param tableau) + ∑ p ∈ range (min (i * param.w) param.nq), difference p)
    (n := param.nqtriples) (s := a) ⟨sizeA, by simp⟩ fun {i s} below done => by
      obtain ⟨sizeS, sumS⟩ := done
      have begun : i * param.w < param.nq :=
        mul_lt_of_lt_divCeil pos (admitted.nqtriples ▸ below)
      rw [min_eq_left begun.le] at sumS
      obtain ⟨t, ran, sizeT, sumT⟩ := foldlM_range_returns (ε := ε)
        (f := fun a j => addCopies param lqc alphaq a (j + i * param.w))
        (fun j a' => a'.length = (slots param tableau).length ∧ dot a' (slots param tableau) =
          dot a (slots param tableau) + ∑ p ∈ range (i * param.w + j), difference p)
        (n := tripleWidth param i) (s := s) ⟨sizeS, by simpa using sumS⟩
        fun {j t} inner done => by
          obtain ⟨sizeT, sumT⟩ := done
          rw [tripleWidth] at inner
          obtain ⟨t', ran, sizeT', step⟩ := addCopies_difference (ε := ε) admitted laidOut
            constrained inside weights (show j + i * param.w < param.nq by omega) sizeT
          refine ⟨t', ran, sizeT', ?_⟩
          rw [step, sumT, ← Nat.add_assoc, sum_range_succ, Nat.add_comm j, add_assoc]
      refine ⟨t, ran, sizeT, ?_⟩
      have reached : i * param.w + tripleWidth param i = min ((i + 1) * param.w) param.nq := by
        rw [tripleWidth, Nat.succ_mul]
        omega
      rw [sumT, reached]
  have all : min (param.nqtriples * param.w) param.nq = param.nq := by
    have products := le_divCeil_mul param.nq pos
    rw [← admitted.nqtriples] at products
    exact min_eq_right products
  refine ⟨a', ?_, sizeA'.trans slotsSize, ?_⟩
  · rw [innerProductVector, ran, ok_bind, copied]
  · rw [← dot_slots pos (sizeA'.trans slotsSize), total, sum, all]

end Longfellow.Ligero

namespace Longfellow

open Lib Finset

variable {ε E : Type} [CommRing E]

/-- **Batching is an identity**, for the Ligero tableau and for the Polygero rows: against any values
in the slots of the copies, the coefficients give the weighted left sides of the equations plus the
weighted differences of the copies and their originals. -/
theorem batching_identity :
    (∀ (nw : Nat) (lqc : List LigeroQuadraticConstraint) (config : LigeroConfig)
      (domain : RangeInterpolatorFactory E) (param : LigeroParam) (witness : List E)
      (copies : List (E × E × E)) (tableau : Nat → Nat → E)
      (llterm : List (LigeroLinearConstraint E)) (alphal : List E) (alphaq : List (E × E × E)),
      LigeroParam.tryNew nw lqc.length config domain = some param →
      Ligero.LaidOut param witness copies tableau →
      (∀ l ∈ lqc, l.x < nw ∧ l.y < nw ∧ l.z < nw) →
      (∀ term ∈ llterm, term.c < alphal.length ∧ term.w < nw) → lqc.length ≤ alphaq.length →
      ∃ a, (Ligero.innerProductVector param llterm alphal lqc alphaq : Exec ε _) = .ok a ∧
        a.length = param.nwqrow * param.w ∧
        Ligero.tableauSum param a tableau = weightedRows alphal witness llterm alphal.length +
          ∑ i ∈ range lqc.length, copyDifference witness
            (Ligero.originals (lqc.getD i ⟨0, 0, 0⟩)) (alphaq.getD i 0) (copies.getD i 0)) ∧
    (∀ (nw : Nat) (products : List PolygeroProductConstraint) (config : PolygeroConfig)
      (domain : RangeInterpolatorFactory E) (param : PolygeroParam) (witness : List E)
      (copies : List (E × E × E)) (rows : Nat → Nat → E) (b : List E)
      (a : List (PolygeroLinearTerm E)) (alpha : List E),
      PolygeroParam.tryNew nw products config domain = .ok param → witness.length = nw →
      Polygero.LaidOut param witness copies rows → Polygero.validate nw b.length a = .ok () →
      alpha.length = b.length + 3 * products.length →
      ∃ batched, (Polygero.batchConstraints param b a alpha : Exec ε _) = .ok batched ∧
        batched.length = param.geom.dataRows ∧
        rowsAgainst batched rows = weightedRows alpha witness a b.length +
          ∑ i ∈ range products.length, copyDifference witness
            (Polygero.originals (products.getD i ⟨0, 0, 0⟩))
            (Polygero.copyWeights alpha b.length i) (copies.getD i 0)) := by
  refine ⟨?_, ?_⟩
  · intro nw lqc config domain param witness copies tableau llterm alphal alphaq made laidOut inside
      rows weights
    obtain ⟨admitted, isNw, isNq, _⟩ := tryNew_admitted made
    subst isNw
    obtain ⟨a, ran, size, sum⟩ := Ligero.innerProductVector_identity (ε := ε) admitted laidOut
      isNq.le inside (isNq.trans_le weights) rows
    rw [isNq] at sum
    exact ⟨a, ran, size, sum⟩
  · intro nw products config domain param witness copies rows b a alpha made size laidOut valid
      weights
    have admitted := PolygeroParam.tryNew_admitted made
    obtain ⟨isNw, isProducts⟩ := PolygeroParam.tryNew_eq made
    have count := admitted.count
    rw [isProducts] at count
    obtain ⟨batched, ran, rowCount, _, sum⟩ := Polygero.batchConstraints_identity (ε := ε) admitted
      (size.trans isNw.symm) laidOut (b := b) (a := a) (isNw.symm ▸ check_eq_ok.mp valid)
      (show b.length + 3 * param.geom.nq ≤ alpha.length by omega)
    rw [isProducts, ← count] at sum
    exact ⟨batched, ran, rowCount, sum⟩

/-- One witness value and one product, with copies that differ from it. -/
theorem batching_identity_one :
    (∃ a, (Ligero.innerProductVector (.layoutRows 1 1 ⟨4, 1, 17⟩ 3) [⟨0, 0, 2⟩] [10] [⟨0, 0, 0⟩]
        [(1, 2, 3)] : Exec Unit (List ℤ)) = .ok a ∧ a.length = 8 ∧
      Ligero.tableauSum (.layoutRows 1 1 ⟨4, 1, 17⟩ 3) a (fun row _ => (row : ℤ)) =
        weightedRows [10] [3] [⟨0, 0, 2⟩] 1 + ∑ i ∈ range 1, copyDifference [3]
          (Ligero.originals ([⟨0, 0, 0⟩].getD i ⟨0, 0, 0⟩)) ([(1, 2, 3)].getD i 0)
          ([(4, 5, 6)].getD i 0)) ∧
    (∃ batched, (Polygero.batchConstraints ⟨⟨1, 1, 4, 1, 8, 1⟩, [⟨0, 0, 0⟩]⟩ [7] [⟨0, 0, 2⟩]
        [10, 1, 2, 3] : Exec Unit (List (List ℤ))) = .ok batched ∧ batched.length = 4 ∧
      rowsAgainst batched (fun row _ => (row : ℤ)) =
        weightedRows [10, 1, 2, 3] [0] [⟨0, 0, 2⟩] 1 + ∑ i ∈ range 1, copyDifference [0]
          (Polygero.originals ([⟨0, 0, 0⟩].getD i ⟨0, 0, 0⟩))
          (Polygero.copyWeights [10, 1, 2, 3] 1 i) ([(1, 2, 3)].getD i 0)) := by
  have only : ∀ {p : Nat → Prop}, p 0 → ∀ i < 1, p i := fun zero i below => by
    obtain rfl : i = 0 := by omega
    exact zero
  have all := @batching_identity Unit ℤ _
  refine ⟨all.1 1 [⟨0, 0, 0⟩] ⟨4, 1, 17⟩ ⟨fun _ _ => true, fun _ _ => ⟨id, id⟩, fun i => i⟩ _ [3]
    [(4, 5, 6)] (fun row _ => row) [⟨0, 0, 2⟩] [10] [(1, 2, 3)] rfl
    ⟨only rfl, only rfl, only rfl, only rfl⟩ (by decide) (by decide) (by decide),
    all.2 1 [⟨0, 0, 0⟩] ⟨4, 1, 8, 1⟩ ⟨fun _ _ => true, fun _ _ => ⟨id, id⟩, fun i => i⟩ _ [0]
      [(1, 2, 3)] (fun row _ => row) [7] [⟨0, 0, 2⟩] [10, 1, 2, 3] rfl rfl
      ⟨only rfl, only rfl, only rfl, only rfl⟩ rfl rfl⟩

end Longfellow
