/-
**The extension of degree six of the field of 24 bits** (`core/algebra/src/fp24_ext6.rs`).

An element is the six coefficients of a polynomial modulo `X^6 - 7`. The inverse of `a` is the
solution of the linear system `a * x = 1`, whose matrix is a circulant with factors 7 above the
diagonal.

* `invertExtension_returns` — **the inversion returns the inverse**.
-/

import Longfellow.Algebra.Fp24
import Longfellow.Lib.Echelon
import Mathlib.FieldTheory.Finite.Basic
import Mathlib.FieldTheory.KummerExtension

namespace Longfellow.Fp24Ext6

open Lib Fp24 Polynomial

variable {ε : Type}

def BETA : ℕ := 7

abbrev Element := Fin 6 → ℕ

/-- Whether all coefficients but the first are zero. -/
def isBase (a : Element) : Bool := (List.finRange 6).tail.all fun i => a i = 0

/-- Coefficient `k` of the product of two polynomials. -/
def product (a b : Element) (k : ℕ) : ℕ :=
  ∑ i : Fin 6, ∑ j : Fin 6, if (i : ℕ) + j = k then a i * b j else 0

def mulExtension (a b : Element) : Element :=
  if isBase b then fun i => mulBase (a i) (b 0)
  else if isBase a then fun i => mulBase (a 0) (b i)
  else fun i =>
    (if (i : ℕ) < 5 then product a b i + product a b (i + 6) * BETA else product a b i) % Q

/-- Multiplication by `a`; the index is taken modulo six. -/
def circulant (a : Element) (row column : Fin 6) : ℕ :=
  if column ≤ row then a (row - column) else mulBase (a (row - column)) BETA

/-- The coefficients of one. -/
def one : Element := fun i => if i = 0 then 1 else 0

/-- A matrix and the right-hand sides. -/
structure System where
  matrix : Fin 6 → Fin 6 → ℕ
  result : Fin 6 → ℕ

/-- The rows of a system in another order. -/
def System.swap (s : System) (order : Fin 6 ≃ Fin 6) : System :=
  ⟨s.matrix ∘ order, s.result ∘ order⟩

/-- Row `column` times `scale`, from the column on. -/
def System.scale (s : System) (column : Fin 6) (scale : ℕ) : System :=
  ⟨fun row j => if row = column ∧ column ≤ j then mulBase (s.matrix row j) scale
      else s.matrix row j,
    fun row => if row = column then mulBase (s.result row) scale else s.result row⟩

/-- Row `column` is taken out of the others, from the column on. -/
def System.clear (s : System) (column : Fin 6) : System :=
  ⟨fun row j => if row ≠ column ∧ column ≤ j then
      subBase (s.matrix row j) (mulBase (s.matrix row column) (s.matrix column j))
      else s.matrix row j,
    fun row => if row ≠ column then
      subBase (s.result row) (mulBase (s.matrix row column) (s.result column))
      else s.result row⟩

/-- One column of the elimination. -/
def eliminate (s : System) (column : Fin 6) : Exec ε System := do
  let pivot ← expect (((List.finRange 6).drop column).find? fun row => s.matrix row column ≠ 0)
    "extension polynomial must define a field"
  let s := s.swap (Equiv.swap column pivot)
  let scale ← invertBase (s.matrix column column)
  pure ((s.scale column scale).clear column)

def invertExtension (a : Element) : Exec ε Element := do
  ensure ((List.finRange 6).any fun i => a i ≠ 0) "cannot invert zero"
  if isBase a then
    let c ← invertBase (a 0)
    pure fun i => if i = 0 then c else 0
  else
    let s ← (List.finRange 6).foldlM eliminate ⟨circulant a, one⟩
    pure s.result

/-! ### The field -/

/-- The modulus of the extension. -/
noncomputable def modulus : (ZMod Q)[X] := X ^ 6 - C 7

theorem seven_ne_pow {n : ℕ} (divides : n ∣ Q - 1) (power : 7 ^ ((Q - 1) / n) % Q ≠ 1)
    (b : ZMod Q) : b ^ n ≠ 7 := by
  intro root
  have nonzero : b ≠ 0 := by
    rintro rfl
    rcases Nat.eq_zero_or_pos n with rfl | pos
    · rw [pow_zero] at root
      exact absurd root (by decide)
    · rw [zero_pow pos.ne'] at root
      exact absurd root (by decide)
  have one : ((7 ^ ((Q - 1) / n) : ℕ) : ZMod Q) = (1 : ℕ) := by
    rw [Nat.cast_pow, Nat.cast_ofNat, ← root, ← pow_mul, Nat.mul_div_cancel' divides,
      ZMod.pow_card_sub_one_eq_one nonzero, Nat.cast_one]
  exact power ((ZMod.natCast_eq_natCast_iff' _ _ _).mp one)

theorem seven_ne_square (b : ZMod Q) : b ^ 2 ≠ 7 :=
  seven_ne_pow (by decide) (by decide +kernel) b

theorem seven_ne_cube (b : ZMod Q) : b ^ 3 ≠ 7 :=
  seven_ne_pow (by decide) (by decide +kernel) b

/-- **The extension is a field**: a square root of a cube root of 7 would have a norm whose square
is 7. -/
theorem irreducible_modulus : Irreducible modulus := by
  have cube : Irreducible (X ^ 3 - C (7 : ZMod Q)) :=
    X_pow_sub_C_irreducible_of_prime Nat.prime_three seven_ne_cube
  rw [modulus, show 6 = 2 * 3 from rfl]
  refine X_pow_mul_sub_C_irreducible cube fun E _ _ x minimal => ?_
  have integral : IsIntegral (ZMod Q) x := by
    by_contra other
    have degree := congrArg Polynomial.degree (minpoly.eq_zero other)
    rw [minimal, degree_X_pow_sub_C (by decide)] at degree
    exact absurd degree (by simp)
  refine X_pow_sub_C_irreducible_of_prime Nat.prime_two fun b square => ?_
  refine seven_ne_square (Algebra.norm _ b) ?_
  rw [← map_pow, square, ← IntermediateField.adjoin.powerBasis_gen integral,
    Algebra.PowerBasis.norm_gen_eq_coeff_zero_minpoly]
  simp [IntermediateField.minpoly_gen, minimal]
  norm_num

instance : Fact (Irreducible modulus) := ⟨irreducible_modulus⟩

/-- The element of some coefficients. -/
noncomputable def value (y : Fin 6 → ZMod Q) : AdjoinRoot modulus :=
  AdjoinRoot.mk modulus (∑ j : Fin 6, C (y j) * X ^ (j : ℕ))

theorem value_eq (y : Fin 6 → ZMod Q) :
    value y = ∑ j : Fin 6, AdjoinRoot.of modulus (y j) * AdjoinRoot.root modulus ^ (j : ℕ) := by
  simp [value]

theorem root_pow_six : AdjoinRoot.root modulus ^ 6 = AdjoinRoot.of modulus 7 := by
  have zero : AdjoinRoot.mk modulus (X ^ 6 - C 7) = 0 := AdjoinRoot.mk_self
  rw [map_sub, map_pow, AdjoinRoot.mk_X, AdjoinRoot.mk_C, sub_eq_zero] at zero
  exact zero

theorem monic_modulus : modulus.Monic := monic_X_pow_sub_C 7 (by decide)

theorem eq_zero_of_value {y : Fin 6 → ZMod Q} (zero : value y = 0) : y = 0 := by
  by_contra other
  have degree : (∑ j : Fin 6, C (y j) * X ^ (j : ℕ)).degree < modulus.degree := by
    rw [modulus, degree_X_pow_sub_C (by decide)]
    exact degree_sum_fin_lt y
  have nonzero : ∑ j : Fin 6, C (y j) * X ^ (j : ℕ) ≠ 0 := by
    intro none
    refine other (funext fun j => ?_)
    have coefficient := congrArg (fun p => p.coeff (j : ℕ)) none
    simpa [finsetSum_coeff, coeff_C_mul, coeff_X_pow, Fin.val_inj] using coefficient
  exact AdjoinRoot.mk_ne_zero_of_degree_lt monic_modulus nonzero degree zero

/-! ### Products -/

/-- The coefficients as classes. -/
def classes (a : Element) (j : Fin 6) : ZMod Q := (a j : ZMod Q)

/-- The matrix of a multiplication, over the classes. -/
def matrixOf (a : Element) (row column : Fin 6) : ZMod Q := (circulant a row column : ZMod Q)

/-- Coefficients below `q`. -/
def Canonical (a : Element) : Prop := ∀ i, a i < Q

variable {a : Element}

theorem circulant_lt (canonical : Canonical a) (row column : Fin 6) :
    circulant a row column < Q := by
  rw [circulant]
  split_ifs
  · exact canonical _
  · exact (mulBase_spec _ _).1

/-- The entry of the matrix that coefficient `i` is for. -/
theorem matrixOf_add (a : Element) (i column : Fin 6) :
    AdjoinRoot.of modulus (matrixOf a (i + column) column) *
        AdjoinRoot.root modulus ^ ((i + column : Fin 6) : ℕ) =
      AdjoinRoot.of modulus (classes a i) * AdjoinRoot.root modulus ^ (i : ℕ) *
        AdjoinRoot.root modulus ^ (column : ℕ) := by
  have index := Fin.val_add i column
  rw [matrixOf, circulant, add_sub_cancel_right, mul_assoc, ← pow_add]
  by_cases fits : (i : ℕ) + column < 6
  · rw [Nat.mod_eq_of_lt fits] at index
    rw [if_pos (Fin.le_def.mpr (by omega)), index]
    rfl
  · have wraps : (i : ℕ) + column = 6 + ((i + column : Fin 6) : ℕ) := by omega
    rw [if_neg (fun less => by rw [Fin.le_def] at less; omega), (mulBase_spec _ _).2, wraps,
      pow_add, root_pow_six, map_mul, mul_assoc]
    rfl

theorem value_column (a : Element) (column : Fin 6) :
    value (fun row => matrixOf a row column) =
      value (classes a) * AdjoinRoot.root modulus ^ (column : ℕ) := by
  rw [value_eq, value_eq, Finset.sum_mul, ← Equiv.sum_comp (Equiv.addRight column)]
  exact Finset.sum_congr rfl fun i _ => matrixOf_add a i column

/-- **The matrix of a multiplication.** -/
theorem value_matrix (a : Element) (y : Fin 6 → ZMod Q) :
    value (fun row => ∑ j, matrixOf a row j * y j) = value (classes a) * value y := by
  have rows : value (fun row => ∑ j, matrixOf a row j * y j) =
      ∑ j, value (fun row => matrixOf a row j) * AdjoinRoot.of modulus (y j) := by
    simp only [value_eq, map_sum, map_mul, Finset.sum_mul]
    rw [Finset.sum_comm]
    exact Finset.sum_congr rfl fun j _ => Finset.sum_congr rfl fun row _ => by ring
  rw [rows, value_eq y, Finset.mul_sum]
  refine Finset.sum_congr rfl fun j _ => ?_
  rw [value_column]
  ring

theorem matrix_injective (nonzero : classes a ≠ 0) {y : Fin 6 → ZMod Q}
    (zero : ∀ row, ∑ j, matrixOf a row j * y j = 0) : y = 0 := by
  have none : value (classes a) * value y = 0 := by
    rw [← value_matrix, funext zero]
    simp [value_eq]
  rcases mul_eq_zero.mp none with left | right
  · exact absurd (eq_zero_of_value left) nonzero
  · exact eq_zero_of_value right

theorem isBase_iff : isBase a = true ↔ ∀ i ≠ 0, a i = 0 := by
  rw [isBase, List.finRange_succ, List.tail_cons, List.all_map, List.all_eq_true]
  constructor
  · intro all i other
    obtain ⟨k, rfl⟩ := Fin.exists_succ_eq.mpr other
    exact of_decide_eq_true (all k (List.mem_finRange k))
  · intro all k _
    exact decide_eq_true (all k.succ (Fin.succ_ne_zero k))

/-- The only coefficient of the first factor that meets coefficient `j` of the second one in
coefficient `k`, or in coefficient `k + 6`. -/
theorem column_product (a b : Element) (k j : Fin 6) :
    (∑ i : Fin 6, if (i : ℕ) + j = k then a i * b j else 0) +
        (∑ i : Fin 6, if (i : ℕ) + j = k + 6 then a i * b j else 0) * BETA =
      (if j ≤ k then a (k - j) else a (k - j) * BETA) * b j := by
  have index := Fin.val_add (k - j) j
  rw [sub_add_cancel] at index
  have only : ∀ {i : Fin 6}, ((i : ℕ) + j) % 6 = k → i = k - j := fun {i} equal =>
    eq_sub_of_add_eq (Fin.ext ((Fin.val_add i j).trans equal))
  have wrapped := Nat.mod_add_div (((k - j : Fin 6) : ℕ) + j) 6
  rw [Finset.sum_eq_single (k - j), Finset.sum_eq_single (k - j)]
  · by_cases ordered : j ≤ k
    · have low : ((k - j : Fin 6) : ℕ) + j = k := by
        rw [Fin.le_def] at ordered
        omega
      rw [if_pos low, if_neg (by omega), if_pos ordered, Nat.zero_mul, Nat.add_zero]
    · have high : ((k - j : Fin 6) : ℕ) + j = k + 6 := by
        rw [Fin.le_def] at ordered
        omega
      rw [if_neg (by omega), if_pos high, if_neg ordered, Nat.zero_add, Nat.mul_right_comm]
  · exact fun i _ other => if_neg fun equal => other (only (by omega))
  · exact fun out => absurd (Finset.mem_univ _) out
  · exact fun i _ other => if_neg fun equal => other (only (by omega))
  · exact fun out => absurd (Finset.mem_univ _) out

theorem product_fold (a b : Element) (i : Fin 6) :
    ((product a b i + product a b (i + 6) * BETA : ℕ) : ZMod Q) =
      ∑ j, matrixOf a i j * classes b j := by
  have columns : ∀ k, product a b k =
      ∑ j : Fin 6, ∑ i : Fin 6, if (i : ℕ) + j = k then a i * b j else 0 :=
    fun k => Finset.sum_comm
  rw [columns, columns, Finset.sum_mul, ← Finset.sum_add_distrib, Nat.cast_sum]
  refine Finset.sum_congr rfl fun j _ => ?_
  rw [column_product, Nat.cast_mul, matrixOf, circulant]
  split_ifs
  · rfl
  · rw [(mulBase_spec _ _).2, Nat.cast_mul]
    rfl

/-- **A product** is the matrix of one factor times the other. -/
theorem mulExtension_cast (a b : Element) (i : Fin 6) :
    (mulExtension a b i : ZMod Q) = ∑ j, matrixOf a i j * classes b j := by
  rw [mulExtension]
  by_cases right : isBase b = true
  · have zero := isBase_iff.mp right
    rw [if_pos right, Finset.sum_eq_single 0, (mulBase_spec _ _).2, matrixOf, circulant,
      if_pos (Fin.zero_le i), sub_zero]
    · rfl
    · intro j _ other
      rw [classes, zero j other, Nat.cast_zero, mul_zero]
    · exact fun out => absurd (Finset.mem_univ _) out
  · rw [if_neg right]
    by_cases left : isBase a = true
    · have zero := isBase_iff.mp left
      rw [if_pos left, Finset.sum_eq_single i, (mulBase_spec _ _).2, matrixOf, circulant,
        if_pos le_rfl, sub_self]
      · rfl
      · intro j _ other
        have none := zero (i - j) (sub_ne_zero.mpr other.symm)
        rw [matrixOf, circulant, none]
        simp [mulBase]
      · exact fun out => absurd (Finset.mem_univ _) out
    · rw [if_neg left, ZMod.natCast_mod, ← product_fold]
      by_cases folded : (i : ℕ) < 5
      · rw [if_pos folded]
      · -- no two coefficients meet above the tenth
        have none : product a b (i + 6) = 0 := by
          refine Finset.sum_eq_zero fun k _ => Finset.sum_eq_zero fun j _ => if_neg ?_
          omega
        rw [if_neg folded, none, Nat.zero_mul, Nat.add_zero]

theorem mulExtension_lt (a b : Element) (i : Fin 6) : mulExtension a b i < Q := by
  rw [mulExtension]
  split_ifs
  · exact (mulBase_spec _ _).1
  · exact (mulBase_spec _ _).1
  · exact Nat.mod_lt _ (by decide)

/-! ### The elimination -/

/-- A row of a system: its coefficients and its right-hand side. -/
abbrev Row := (Fin 6 → ZMod Q) × ZMod Q

/-- A coefficient of a row. -/
def entryAt (j : Fin 6) : Row →ₗ[ZMod Q] ZMod Q := LinearMap.proj j ∘ₗ LinearMap.fst _ _ _

/-- The rows of a system. -/
def rowsOf (s : System) (i : Fin 6) : Row := (fun j => (s.matrix i j : ZMod Q), (s.result i : ZMod Q))

/-- The system has the solutions of the first one, and its first columns are done. -/
structure Eliminates (start : System) (column : ℕ) (s : System) : Prop where
  matrix : ∀ i j, s.matrix i j < Q
  result : ∀ i, s.result i < Q
  reduced : Reduced entryAt (rowsOf s) id {i | (i : ℕ) < column}
  span : Submodule.span (ZMod Q) (Set.range (rowsOf s)) =
    Submodule.span (ZMod Q) (Set.range (rowsOf start))

variable {start s : System} {column : ℕ}

theorem rowsOf_swap (s : System) (order : Fin 6 ≃ Fin 6) :
    rowsOf (s.swap order) = rowsOf s ∘ order := rfl

theorem Eliminates.swap (eliminates : Eliminates start column s) (order : Fin 6 ≃ Fin 6)
    (fixed : ∀ i : Fin 6, (i : ℕ) < column → order i = i) :
    Eliminates start column (s.swap order) where
  matrix _ _ := eliminates.matrix _ _
  result _ := eliminates.result _
  reduced := eliminates.reduced.comp order fixed
  span := by rw [rowsOf_swap, span_comp, eliminates.span]

theorem notMem_done (c : Fin 6) : c ∉ {i : Fin 6 | (i : ℕ) < c} := by
  simp

variable {c : Fin 6}

theorem Eliminates.scale (eliminates : Eliminates start c s) {factor : ℕ}
    (nonzero : (factor : ZMod Q) ≠ 0) : Eliminates start c (s.scale c factor) := by
  have rows : rowsOf (s.scale c factor) =
      Function.update (rowsOf s) c ((factor : ZMod Q) • rowsOf s c) := by
    funext i
    by_cases same : i = c
    · subst same
      rw [Function.update_self]
      refine Prod.ext (funext fun j => ?_) ?_
      · show ((if i = i ∧ i ≤ j then mulBase (s.matrix i j) factor else s.matrix i j : ℕ) : ZMod Q) =
          factor * (s.matrix i j : ZMod Q)
        by_cases later : i ≤ j
        · rw [if_pos ⟨rfl, later⟩, (mulBase_spec _ _).2, mul_comm]
        · -- the row has no entries in the columns that are done
          have zero : (s.matrix i j : ZMod Q) = 0 :=
            eliminates.reduced.others j (not_le.mp later) i (fun equal => later equal.le)
          rw [if_neg fun both => later both.2, zero, mul_zero]
      · show ((if i = i then mulBase (s.result i) factor else s.result i : ℕ) : ZMod Q) =
          factor * (s.result i : ZMod Q)
        rw [if_pos rfl, (mulBase_spec _ _).2, mul_comm]
    · rw [Function.update_of_ne same]
      refine Prod.ext (funext fun j => ?_) ?_
      · exact congrArg Nat.cast (if_neg fun both => same both.1)
      · exact congrArg Nat.cast (if_neg same)
  refine ⟨fun i j => ?_, fun i => ?_, ?_, ?_⟩
  · rw [System.scale]
    dsimp only
    split_ifs
    · exact (mulBase_spec _ _).1
    · exact eliminates.matrix i j
  · rw [System.scale]
    dsimp only
    split_ifs
    · exact (mulBase_spec _ _).1
    · exact eliminates.result i
  · rw [rows]
    exact eliminates.reduced.scale (notMem_done c) _
  · rw [rows, span_scale nonzero, eliminates.span]

theorem Eliminates.clear (eliminates : Eliminates start c s) (one : (s.matrix c c : ZMod Q) = 1) :
    Eliminates start (c + 1) (s.clear c) := by
  let factor : Fin 6 → ZMod Q := fun i => if i = c then 0 else -(s.matrix i c : ZMod Q)
  have stays : factor c = 0 := if_pos rfl
  have other : ∀ {i}, i ≠ c → factor i = -(s.matrix i c : ZMod Q) := fun {i} apart => if_neg apart
  have taken : ∀ {x y z : ℕ}, x < Q →
      (subBase x (mulBase y z) : ZMod Q) = x + -(y : ZMod Q) * z := fun {x y z} small => by
    rw [(subBase_spec small (mulBase_spec y z).1).2, (mulBase_spec y z).2]
    ring
  have rows : rowsOf (s.clear c) = rowsOf s + (factor · • rowsOf s c) := by
    funext i
    by_cases same : i = c
    · subst same
      rw [Pi.add_apply, stays, zero_smul, add_zero]
      refine Prod.ext (funext fun j => ?_) ?_
      · exact congrArg Nat.cast (if_neg fun both => both.1 rfl)
      · exact congrArg Nat.cast (if_neg (not_not_intro rfl))
    · rw [Pi.add_apply, other same]
      refine Prod.ext (funext fun j => ?_) ?_
      · show ((if i ≠ c ∧ c ≤ j then
            subBase (s.matrix i j) (mulBase (s.matrix i c) (s.matrix c j))
            else s.matrix i j : ℕ) : ZMod Q) =
          (s.matrix i j : ZMod Q) + -(s.matrix i c : ZMod Q) * (s.matrix c j : ZMod Q)
        by_cases later : c ≤ j
        · rw [if_pos ⟨same, later⟩, taken (eliminates.matrix i j)]
        · have zero : (s.matrix c j : ZMod Q) = 0 :=
            eliminates.reduced.others j (not_le.mp later) c (fun equal => later equal.le)
          rw [if_neg fun both => later both.2, zero, mul_zero, add_zero]
      · show ((if i ≠ c then subBase (s.result i) (mulBase (s.matrix i c) (s.result c))
            else s.result i : ℕ) : ZMod Q) =
          (s.result i : ZMod Q) + -(s.matrix i c : ZMod Q) * (s.result c : ZMod Q)
        rw [if_pos same, taken (eliminates.result i)]
  have done : insert c {i : Fin 6 | (i : ℕ) < c} = {i : Fin 6 | (i : ℕ) < c + 1} := by
    ext i
    simp only [Set.mem_insert_iff, Set.mem_ofPred_eq, Fin.ext_iff]
    omega
  refine ⟨fun i j => ?_, fun i => ?_, ?_, ?_⟩
  · rw [System.clear]
    dsimp only
    split_ifs
    · exact (subBase_spec (eliminates.matrix i j) (mulBase_spec _ _).1).1
    · exact eliminates.matrix i j
  · rw [System.clear]
    dsimp only
    split_ifs
    · exact (subBase_spec (eliminates.result i) (mulBase_spec _ _).1).1
    · exact eliminates.result i
  · rw [rows, ← done]
    refine eliminates.reduced.clear (notMem_done c) one rfl stays fun i apart => ?_
    rw [other apart]
    exact add_neg_cancel _
  · rw [rows, span_clear stays, eliminates.span]

/-- A row times a vector of unknowns, without the right-hand side. -/
def dot (y : Fin 6 → ZMod Q) : Row →ₗ[ZMod Q] ZMod Q := ∑ j, y j • entryAt j

theorem dot_apply (y : Fin 6 → ZMod Q) (row : Row) : dot y row = ∑ j, y j * row.1 j := by
  simp [dot, entryAt]

theorem Eliminates.unit (eliminates : Eliminates start column s) {j : Fin 6}
    (done : (j : ℕ) < column) (i : Fin 6) :
    (s.matrix i j : ZMod Q) = if i = j then 1 else 0 := by
  by_cases same : i = j
  · rw [if_pos same, same]
    exact eliminates.reduced.one j done
  · rw [if_neg same]
    exact eliminates.reduced.others j done i same

/-- The system of a multiplication. -/
def systemOf (a : Element) : System := ⟨circulant a, one⟩

/-- **A pivot is found**: else the column would depend on those before it. -/
theorem Eliminates.pivot (nonzero : classes a ≠ 0) (eliminates : Eliminates (systemOf a) c s) :
    ∃ pivot, ((List.finRange 6).drop c).find? (fun row => s.matrix row c ≠ 0) = some pivot ∧
      c ≤ pivot ∧ s.matrix pivot c ≠ 0 := by
  cases found : ((List.finRange 6).drop c).find? (fun row => s.matrix row c ≠ 0) with
  | some pivot =>
    have member := List.mem_of_find?_eq_some found
    have nonzero : decide (s.matrix pivot c ≠ 0) = true := (List.find?_some found :)
    obtain ⟨k, inside, rfl⟩ := List.getElem_of_mem member
    refine ⟨_, rfl, ?_, of_decide_eq_true nonzero⟩
    rw [List.getElem_drop, List.getElem_finRange, Fin.le_def]
    simp
  | none =>
    exfalso
    have zero : ∀ row, c ≤ row → s.matrix row c = 0 := by
      intro row later
      by_contra other
      refine List.find?_eq_none.mp found row ?_ (decide_eq_true other)
      rw [List.mem_iff_getElem]
      refine ⟨row - c, by simp; omega, ?_⟩
      rw [List.getElem_drop, List.getElem_finRange, Fin.ext_iff]
      simp
      omega
    -- the column minus the combination of the columns that are done
    let y : Fin 6 → ZMod Q := fun j =>
      if j = c then 1 else if j < c then -(s.matrix j c : ZMod Q) else 0
    have rows : ∀ i, dot y (rowsOf s i) = 0 := by
      intro i
      rw [dot_apply]
      by_cases before : i < c
      · have entry := eliminates.unit before i
        rw [if_pos rfl] at entry
        rw [Fintype.sum_eq_add c i before.ne' fun j ⟨apart, apart'⟩ => ?_]
        · show y c * (s.matrix i c : ZMod Q) + y i * (s.matrix i i : ZMod Q) = 0
          rw [entry, show y c = 1 from if_pos rfl,
            show y i = -(s.matrix i c : ZMod Q) from (if_neg before.ne).trans (if_pos before)]
          ring
        · show y j * (s.matrix i j : ZMod Q) = 0
          by_cases done : j < c
          · rw [eliminates.unit done i, if_neg apart'.symm, mul_zero]
          · rw [show y j = 0 from (if_neg apart).trans (if_neg done), zero_mul]
      · refine Finset.sum_eq_zero fun j _ => ?_
        show y j * (s.matrix i j : ZMod Q) = 0
        by_cases same : j = c
        · rw [same, zero i (not_lt.mp before), Nat.cast_zero, mul_zero]
        · by_cases done : j < c
          · have apart : i ≠ j := fun equal => before (equal.symm ▸ done)
            rw [eliminates.unit done i, if_neg apart, mul_zero]
          · rw [show y j = 0 from (if_neg same).trans (if_neg done), zero_mul]
    have dependent := eq_zero_of_span eliminates.span rows
    have none : y = 0 := matrix_injective nonzero fun row => by
      rw [← dependent row, dot_apply]
      exact Finset.sum_congr rfl fun j _ => mul_comm _ _
    have one : y c = 1 := if_pos rfl
    rw [none] at one
    exact zero_ne_one one

/-- **One column.** -/
theorem Eliminates.step (nonzero : classes a ≠ 0) (eliminates : Eliminates (systemOf a) c s) :
    ∃ s', eliminate s c = (.ok s' : Exec ε System) ∧ Eliminates (systemOf a) (c + 1) s' := by
  obtain ⟨pivot, found, later, entry⟩ := eliminates.pivot nonzero
  have swapped := eliminates.swap (Equiv.swap c pivot) fun i before =>
    Equiv.swap_apply_of_ne_of_ne (Fin.ne_of_lt before)
      (Fin.ne_of_lt (lt_of_lt_of_le (Fin.lt_def.mpr before) later))
  have run : ∀ {t : System} {factor : ℕ}, s.swap (Equiv.swap c pivot) = t →
      invertBase (t.matrix c c) = (.ok factor : Exec ε ℕ) →
      eliminate s c = (.ok ((t.scale c factor).clear c) : Exec ε System) := by
    intro t factor same ran
    rw [eliminate, found, expect_some, ok_bind]
    dsimp only
    rw [same, ran, ok_bind, pure_eq_ok]
  have moved : (s.swap (Equiv.swap c pivot)).matrix c c = s.matrix pivot c :=
    congrArg (s.matrix · c) (Equiv.swap_apply_left c pivot)
  generalize isSwapped : s.swap (Equiv.swap c pivot) = t at swapped moved
  obtain ⟨factor, ran, -, inverse⟩ := invertBase_returns (ε := ε) (moved ▸ entry)
    (swapped.matrix c c)
  have nonzero : (factor : ZMod Q) ≠ 0 := left_ne_zero_of_mul_eq_one inverse
  have scaled := swapped.scale nonzero
  have one : ((t.scale c factor).matrix c c : ZMod Q) = 1 := by
    show ((if c = c ∧ c ≤ c then mulBase (t.matrix c c) factor else t.matrix c c : ℕ) : ZMod Q) = 1
    rw [if_pos ⟨rfl, le_rfl⟩, (mulBase_spec _ _).2, mul_comm, inverse]
  exact ⟨_, run isSwapped ran, scaled.clear one⟩

theorem eliminates_start (canonical : Canonical a) :
    Eliminates (systemOf a) 0 (systemOf a) := by
  refine ⟨circulant_lt canonical, fun i => ?_, ?_, rfl⟩
  · show one i < Q
    rw [one]
    split_ifs <;> decide
  · have none : {i : Fin 6 | (i : ℕ) < 0} = ∅ :=
      Set.eq_empty_of_forall_notMem fun _ before => Nat.not_lt_zero _ before
    rw [none]
    exact reduced_empty

/-- **All columns.** -/
theorem eliminate_returns (canonical : Canonical a) (nonzero : classes a ≠ 0) :
    ∃ s, (List.finRange 6).foldlM eliminate (systemOf a) = (.ok s : Exec ε System) ∧
      Eliminates (systemOf a) 6 s := by
  refine foldlM_returns (fun done s => Eliminates (systemOf a) done.length s)
    (eliminates_start canonical) fun {done c s} listed eliminates => ?_
  have index : (c : ℕ) = done.length := by
    have entry := listed.getElem (i := done.length) (by simp)
    rw [List.getElem_concat_length rfl, List.getElem_finRange] at entry
    rw [entry]
    rfl
  rw [List.length_append, List.length_singleton, ← index]
  exact (index ▸ eliminates : Eliminates (systemOf a) c s).step nonzero

/-- **The solution.** -/
theorem Eliminates.solution (eliminates : Eliminates (systemOf a) 6 s) :
    Canonical s.result ∧ mulExtension a s.result = one := by
  let f : Row →ₗ[ZMod Q] ZMod Q := dot (classes s.result) - LinearMap.snd _ _ _
  have rows : ∀ i, f (rowsOf s i) = 0 := by
    intro i
    rw [LinearMap.sub_apply, dot_apply, Finset.sum_eq_single i]
    · show classes s.result i * (s.matrix i i : ZMod Q) - (s.result i : ZMod Q) = 0
      rw [eliminates.unit i.2, if_pos rfl, mul_one]
      exact sub_self _
    · intro j _ other
      show classes s.result j * (s.matrix i j : ZMod Q) = 0
      rw [eliminates.unit j.2, if_neg other.symm, mul_zero]
    · exact fun out => absurd (Finset.mem_univ _) out
  have solved := eq_zero_of_span eliminates.span rows
  refine ⟨eliminates.result, funext fun i => ?_⟩
  have small : one i < Q := by
    rw [one]
    split_ifs <;> decide
  refine natCast_inj (mulExtension_lt a _ i) small ?_
  rw [mulExtension_cast]
  have row := solved i
  rw [LinearMap.sub_apply, dot_apply, sub_eq_zero] at row
  rw [← Finset.sum_congr rfl fun j _ => mul_comm _ _]
  exact row

theorem classes_ne_zero (canonical : Canonical a) (nonzero : a ≠ 0) :
    classes a ≠ 0 := by
  intro zero
  refine nonzero (funext fun i => ?_)
  exact natCast_inj (canonical i) (show 0 < Q by decide) ((congrFun zero i).trans Nat.cast_zero.symm)

theorem mulExtension_base (base : isBase a = true) {c : ℕ} (inverse : (c : ZMod Q) * a 0 = 1) :
    mulExtension a (fun i => if i = 0 then c else 0) = one := by
  have zero := isBase_iff.mp base
  funext i
  have small : one i < Q := by
    rw [one]
    split_ifs <;> decide
  refine natCast_inj (mulExtension_lt a _ i) small ?_
  rw [mulExtension_cast, Finset.sum_eq_single 0]
  · rw [matrixOf, circulant, if_pos (Fin.zero_le i), sub_zero, classes, if_pos rfl, one]
    by_cases first : i = 0
    · rw [first, if_pos rfl, mul_comm, inverse, Nat.cast_one]
    · rw [zero i first, if_neg first, Nat.cast_zero, zero_mul]
  · intro j _ other
    rw [classes, if_neg other, Nat.cast_zero, mul_zero]
  · exact fun out => absurd (Finset.mem_univ _) out

/-- **The inverse of an element.** -/
theorem invertExtension_returns (canonical : Canonical a) (nonzero : a ≠ 0) :
    ∃ c, invertExtension a = (.ok c : Exec ε Element) ∧ Canonical c ∧ mulExtension a c = one := by
  obtain ⟨i, other⟩ := Function.ne_iff.mp nonzero
  have guard : ((List.finRange 6).any fun i => a i ≠ 0) = true :=
    List.any_eq_true.mpr ⟨i, List.mem_finRange i, decide_eq_true other⟩
  rw [invertExtension, ensure_of guard, ok_bind]
  by_cases base : isBase a = true
  · have first : a 0 ≠ 0 := by
      intro zero
      by_cases same : i = 0
      · exact other (same ▸ zero)
      · exact other (isBase_iff.mp base i same)
    obtain ⟨c, ran, small, inverse⟩ := invertBase_returns (ε := ε) first (canonical 0)
    rw [if_pos base, ran, ok_bind, pure_eq_ok]
    refine ⟨_, rfl, fun i => ?_, mulExtension_base base inverse⟩
    dsimp only
    split_ifs
    · exact small
    · decide
  · obtain ⟨s, ran, eliminates⟩ := eliminate_returns (ε := ε) canonical
      (classes_ne_zero canonical nonzero)
    obtain ⟨small, solved⟩ := eliminates.solution
    rw [systemOf] at ran
    rw [if_neg base, ran, ok_bind, pure_eq_ok]
    exact ⟨_, rfl, small, solved⟩

end Longfellow.Fp24Ext6
