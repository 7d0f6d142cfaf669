/-
**Tables** (`circuits/lookup/src/circuit.rs`, `circuits/polynomial/src/circuit.rs`).

A table is a polynomial through its entries, which may leave some indices out. The circuit evaluates
it at an encoded index, with products of powers in a tree.

* `eval_point` — **at the point of an index, a table has the entry of the index**.
-/

import Longfellow.Gadget.Interpolation
import Longfellow.Gadget.LookupPoints
import Longfellow.Lib.Safe

set_option linter.unusedSectionVars false

namespace Longfellow.Gadget

open scoped BigOperators

open Lib

variable {E : Type} [InvertibleField E] [DecidableEq E]

def Logic.dot (a b : List (Wire E)) : Exec String (Wire E) := do
  ensure (a.length = b.length) "assertion `left == right` failed"
  return Logic.sum (List.zipWith Logic.mul a b)

/-- The wires of the coefficients of a table. -/
structure Table (E : Type) where
  plucker : List (Wire E)

namespace Lookup

open Logic Interpolation

/-! ### The circuit -/

/-- The powers of a wire below `n`, each the product of two earlier ones. -/
def powersOfX (n : ℕ) (x : Wire E) : List (Wire E) :=
  (List.range n).foldl (fun xi k =>
    xi ++ [if k = 0 then one else if k = 1 then x
      else mul (xi.getD (k / 2) zero) (xi.getD (k - k / 2) zero)]) []

def evalPolynomial (cc : List (Wire E)) (x : Wire E) : Exec String (Wire E) :=
  dot cc (powersOfX cc.length x)

def eval (table : Table E) (encoded : Wire E) : Exec String (Wire E) := do
  return precious (← evalPolynomial table.plucker encoded)

variable [HasLookupPoints E]

def activeIndices (n : ℕ) (fInit : ℕ → Option (Wire E)) : List ℕ :=
  (List.range n).filter fun i => (fInit i).isSome

def activeValues (n : ℕ) (fInit : ℕ → Option (Wire E)) : List (Wire E) :=
  (List.range n).filterMap fInit

/-- The wire of a coefficient: a column of the basis, combined with the entries. -/
def column (basis : List (List E)) (values : List (Wire E)) (j : ℕ) : Exec String (Wire E) := do
  let terms ← (basis.zip values).mapM fun (bRow, val) => do return mulk (← getAt bRow j) val
  return precious (sum terms)

def table (n : ℕ) (fInit : ℕ → Option (Wire E)) : Exec String (Table E) := do
  let m := (activeIndices n fInit).length
  ensure (0 < m) "Lookup table must have at least one active point"
  let x : List E := (activeIndices n fInit).map (lookupPoint n)
  let basis ← (List.range m).mapM fun k => monomialOfLagrange ((List.replicate m 0).set k 1) x
  let plucker ← (List.range m).mapM (column basis (activeValues n fInit))
  return ⟨plucker⟩

def tableOfArray (a : List (Wire E)) : Exec String (Table E) := table a.length fun i => a[i]?

/-! ### Polynomials -/

variable {x : Wire E}

theorem powersOfX_is {v : E} (is : x.Is v) (n : ℕ) :
    List.Forall₂ Wire.Is (powersOfX n x) (cells n (v ^ ·)) := by
  induction n with
  | zero => exact .nil
  | succ n ih =>
    rw [cells, List.range_succ, List.map_append, powersOfX, List.range_succ, List.foldl_append,
      ← powersOfX]
    refine List.rel_append ih (.cons ?_ .nil)
    have entry : ∀ k < n, ((powersOfX n x).getD k zero).Is (v ^ k) := by
      intro k below
      have size : (powersOfX n x).length = n := by rw [ih.length_eq, length_cells]
      rw [List.getD_eq_getElem _ _ (by omega)]
      refine Wire.Is.congr (List.Forall₂.get ih (by omega) (by rwa [length_cells])) ?_
      simp [cells]
    by_cases first : n = 0
    · rw [if_pos first, first]
      exact Wire.Is.one.congr (pow_zero v).symm
    by_cases second : n = 1
    · rw [if_neg first, if_pos second, second]
      exact is.congr (pow_one v).symm
    · rw [if_neg first, if_neg second]
      refine ((entry _ (by omega)).mul (entry _ (by omega))).congr ?_
      rw [← pow_add]
      congr 1
      omega

theorem sum_cells (n : ℕ) (A : ℕ → E) : (cells n A).sum = ∑ t ∈ Finset.range n, A t := by
  rw [cells, Finset.sum, Finset.range_val, Multiset.range, Multiset.map_coe, Multiset.sum_coe]

theorem zipWith_cells (n : ℕ) (A B : ℕ → E) :
    List.zipWith (· * ·) (cells n A) (cells n B) = cells n fun t => A t * B t := by
  simp only [cells, List.zipWith_map, List.zipWith_self]

/-- **The value of a polynomial.** -/
theorem evalPolynomial_is {cc : List (Wire E)} {n : ℕ} {c : ℕ → E}
    (coefficients : List.Forall₂ Wire.Is cc (cells n c)) {v : E} (is : x.Is v) :
    ∃ y, evalPolynomial cc x = .ok y ∧ y.Is (∑ t ∈ Finset.range n, c t * v ^ t) := by
  have size : cc.length = n := by rw [coefficients.length_eq, length_cells]
  have powers := powersOfX_is is n
  refine ⟨Logic.sum (List.zipWith Logic.mul cc (powersOfX n x)), ?_, ?_⟩
  · rw [evalPolynomial, Logic.dot, size, ensure_of (by rw [powers.length_eq, length_cells]),
      ok_bind, pure_eq_ok]
  · have products : List.Forall₂ Wire.Is (List.zipWith Logic.mul cc (powersOfX n x))
        (List.zipWith (· * ·) (cells n c) (cells n (v ^ ·))) :=
      forall₂_zipWith Wire.Is.mul coefficients powers
    rw [zipWith_cells] at products
    exact (Wire.Is.sum products).congr (sum_cells _ _)

/-! ### Tables -/

variable {n : ℕ} {fInit : ℕ → Option (Wire E)} {v : ℕ → E}

/-- The point of the `k`-th index that has an entry. -/
def point (n : ℕ) (fInit : ℕ → Option (Wire E)) (k : ℕ) : E :=
  lookupPoint n ((activeIndices n fInit).getD k 0)

theorem map_eq_cells (l : List ℕ) (f : ℕ → E) :
    l.map f = cells l.length fun k => f (l.getD k 0) := by
  refine List.ext_getElem (by simp) fun i inside _ => ?_
  rw [List.length_map] at inside
  simp only [cells, List.getElem_map, List.getElem_range]
  rw [List.getD_eq_getElem _ _ inside]

theorem set_replicate_eq_cells (m k : ℕ) :
    (List.replicate m (0 : E)).set k 1 = cells m fun i => if i = k then 1 else 0 := by
  refine List.ext_getElem (by simp) fun i _ _ => ?_
  simp only [cells, List.getElem_set, List.getElem_replicate, List.getElem_map, List.getElem_range]
  exact if_congr eq_comm rfl rfl

theorem basis_asserts (m : ℕ) (X : ℕ → E) :
    Asserts ((List.range m).mapM fun k => monomialOfLagrange ((List.replicate m 0).set k 1)
        (cells m X)) (∀ k ∈ List.range m, Apart m X)
      ((List.range m).map fun k => cells m (basisCoefficient m X k)) := by
  refine asserts_mapM (fun k => ?_) _
  rw [set_replicate_eq_cells]
  exact monomialOfLagrange_single_asserts m k X

variable {t : Table E}

/-- **A table that is made has its points apart.** -/
theorem apart_of_table (made : table n fInit = .ok t) :
    0 < (activeIndices n fInit).length ∧
      Apart (activeIndices n fInit).length (point n fInit) := by
  rw [table, bind_eq_ok] at made
  obtain ⟨_, some, made⟩ := made
  have positive := ensure_eq_ok.mp some
  rw [map_eq_cells, bind_eq_ok] at made
  obtain ⟨basis, ran, -⟩ := made
  have rows := (basis_asserts _ _).returns_iff.mp ⟨basis, ran⟩
  exact ⟨positive, rows 0 (List.mem_range.mpr positive)⟩

theorem activeValues_is (values : ∀ i < n, ∀ w, fInit i = some w → w.Is (v i)) :
    List.Forall₂ Wire.Is (activeValues n fInit) ((activeIndices n fInit).map v) := by
  have general : ∀ l : List ℕ, (∀ i ∈ l, ∀ w, fInit i = some w → w.Is (v i)) →
      List.Forall₂ Wire.Is (l.filterMap fInit) ((l.filter fun i => (fInit i).isSome).map v) := by
    intro l
    induction l with
    | nil => exact fun _ => .nil
    | cons i l ih =>
      intro each
      have rest := ih fun j member => each j (List.mem_cons_of_mem _ member)
      cases entry : fInit i with
      | none =>
        rw [List.filterMap_cons_none entry, List.filter_cons_of_neg (by simp [entry])]
        exact rest
      | some w =>
        rw [List.filterMap_cons_some entry, List.filter_cons_of_pos (by simp [entry])]
        exact .cons (each i (List.mem_cons_self ..) w entry) rest
  exact general _ fun i member => values i (List.mem_range.mp member)

theorem column_returns {m : ℕ} {X v : ℕ → E} {values : List (Wire E)}
    (entries : List.Forall₂ Wire.Is values (cells m v)) {j : ℕ} (inside : j < m) :
    ∃ w, column ((List.range m).map fun k => cells m (basisCoefficient m X k)) values j = .ok w ∧
      w.Is (coefficient m X v j) := by
  let basis := (List.range m).map fun k => cells m (basisCoefficient m X k)
  have read : ∀ row ∈ basis.zip values, (do return mulk (← getAt row.1 j) row.2 : Exec String
      (Wire E)) = .ok (mulk (row.1.getD j 0) row.2) := by
    intro row member
    obtain ⟨k, -, same⟩ := List.mem_map.mp (List.of_mem_zip member).1
    rw [← same, getAt_cells inside, ok_bind, pure_eq_ok, List.getD_eq_getElem _ _ (by simpa)]
    simp [cells]
  refine ⟨sum ((basis.zip values).map fun row => mulk (row.1.getD j 0) row.2), ?_, ?_⟩
  · rw [column, mapM_eq_ok_map read]
    rfl
  · have rows : List.Forall₂ (fun (row : List E) e => row.getD j 0 = e) basis
        (cells m fun k => basisCoefficient m X k j) := by
      rw [List.forall₂_map_left_iff, cells, List.forall₂_map_right_iff, List.forall₂_same]
      intro k _
      rw [List.getD_eq_getElem _ _ (by simpa)]
      simp [cells]
    have products : List.Forall₂ Wire.Is
        (List.zipWith (fun row val => mulk (row.getD j 0) val) basis values)
        (List.zipWith (· * ·) (cells m fun k => basisCoefficient m X k j) (cells m v)) :=
      forall₂_zipWith (fun same is => same ▸ Wire.Is.mulk _ is) rows entries
    rw [zipWith_cells] at products
    rw [List.map_zip_eq_zipWith]
    exact (Wire.Is.sum products).congr (sum_cells _ _)

/-- **A table whose points are apart is made**, and holds the polynomial through its entries. -/
theorem table_returns (values : ∀ i < n, ∀ w, fInit i = some w → w.Is (v i))
    (some : 0 < (activeIndices n fInit).length)
    (apart : Apart (activeIndices n fInit).length (point n fInit)) :
    ∃ t, table n fInit = .ok t ∧ List.Forall₂ Wire.Is t.plucker
      (cells (activeIndices n fInit).length (coefficient (activeIndices n fInit).length
        (point n fInit) fun k => v ((activeIndices n fInit).getD k 0))) := by
  have entries := activeValues_is values
  rw [map_eq_cells] at entries
  have rows := (basis_asserts _ _).returns fun _ _ => apart
  obtain ⟨plucker, ran, each⟩ := mapM_related (l := List.range (activeIndices n fInit).length)
    (r := Wire.Is) fun j member => column_returns (X := point n fInit) entries
      (List.mem_range.mp member)
  refine ⟨⟨plucker⟩, ?_, each⟩
  rw [table, ensure_of some, ok_bind, map_eq_cells]
  show ((List.range (activeIndices n fInit).length).mapM _ >>= _) = _
  rw [show (fun k => lookupPoint n ((activeIndices n fInit).getD k 0)) = point n fInit from rfl, rows,
    ok_bind, ran, ok_bind, pure_eq_ok]

theorem eval_returns (values : ∀ i < n, ∀ w, fInit i = some w → w.Is (v i))
    (made : table n fInit = .ok t) {a : E} (is : x.Is a) :
    ∃ y e, eval t x = .ok y ∧ y.Is e := by
  obtain ⟨some, apart⟩ := apart_of_table made
  obtain ⟨t', made', holds⟩ := table_returns values some apart
  obtain rfl : t = t' := Except.ok.inj (made.symm.trans made')
  obtain ⟨y, ran, value⟩ := evalPolynomial_is holds is
  exact ⟨y, _, by rw [eval, ran]; rfl, value⟩

/-- **At the point of an index, a table has the entry of the index.** -/
theorem eval_point (values : ∀ i < n, ∀ w, fInit i = some w → w.Is (v i))
    (made : table n fInit = .ok t) {i : ℕ} (inside : i < n) (entry : (fInit i).isSome)
    (is : x.Is (lookupPoint n i)) : ∃ y, eval t x = .ok y ∧ y.Is (v i) := by
  obtain ⟨some, apart⟩ := apart_of_table made
  obtain ⟨t', made', holds⟩ := table_returns values some apart
  obtain rfl : t = t' := Except.ok.inj (made.symm.trans made')
  obtain ⟨y, ran, value⟩ := evalPolynomial_is holds is
  refine ⟨y, by rw [eval, ran]; rfl, value.congr ?_⟩
  have active : i ∈ activeIndices n fInit := List.mem_filter.mpr ⟨List.mem_range.mpr inside, entry⟩
  obtain ⟨k, bound, here⟩ := List.mem_iff_getElem.mp active
  have index : (activeIndices n fInit).getD k 0 = i := by rw [List.getD_eq_getElem _ _ bound, here]
  have values := eval_coefficient apart (fun k => v ((activeIndices n fInit).getD k 0)) bound
  rwa [point, index] at values

end Lookup

end Longfellow.Gadget
