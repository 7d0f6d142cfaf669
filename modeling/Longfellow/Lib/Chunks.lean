/-
**Arrays cut into rows.**

An array of coefficients is cut into blocks of a fixed width, the last of them perhaps shorter, and
each block is placed in a row behind some reserved entries. Entry `p` of the array is then found in
row `p / width`, at column `p % width` of the block.

* `sum_chunks` — **the blocks applied row by row** are the array applied to each entry at its place.
-/

import Longfellow.Lib.Dot
import Mathlib.Algebra.BigOperators.Intervals
import Mathlib.Data.List.GetD

namespace Lib

open Finset

variable {α R : Type} [CommRing R] {width : Nat}

/-- The `i`-th block of an array. -/
def chunk (width : Nat) (l : List α) (i : Nat) : List α := (l.drop (i * width)).take width

/-- The blocks of an array; the last one may be shorter. -/
def chunks (width : Nat) (l : List α) : List (List α) :=
  (List.range (divCeil l.length width)).map (chunk width l)

@[simp] theorem length_chunks (width : Nat) (l : List α) :
    (chunks width l).length = divCeil l.length width := by
  rw [chunks, List.length_map, List.length_range]

theorem length_chunk_le (width : Nat) (l : List α) (i : Nat) : (chunk width l i).length ≤ width :=
  List.length_take_le _ _

theorem length_le_of_mem_chunks {l block : List α} (member : block ∈ chunks width l) :
    block.length ≤ width := by
  obtain ⟨i, -, rfl⟩ := List.mem_map.mp member
  exact length_chunk_le ..

/-! ### Coefficients applied to functions -/

/-- A row of coefficients applied to a function of the column. -/
def against (row : List R) (g : Nat → R) : R := ∑ col ∈ range row.length, row.getD col 0 * g col

/-- Rows of coefficients applied to a function of row and column. -/
def rowsAgainst (rows : List (List R)) (g : Nat → Nat → R) : R :=
  ∑ i ∈ range rows.length, against (rows.getD i []) (g i)

theorem against_append (row more : List R) (g : Nat → R) :
    against (row ++ more) g = against row g + against more fun col => g (row.length + col) := by
  unfold against
  rw [List.length_append, sum_range_add]
  congr 1
  · refine sum_congr rfl fun col member => ?_
    rw [List.getD_append _ _ _ _ (mem_range.mp member)]
  · refine sum_congr rfl fun col _ => ?_
    rw [List.getD_append_right _ _ _ _ (Nat.le_add_right ..), Nat.add_sub_cancel_left]

theorem against_zeros (n : Nat) (g : Nat → R) : against (List.replicate n 0) g = 0 := by
  refine sum_eq_zero fun col member => ?_
  rw [List.getD_replicate _ (by simpa using member), zero_mul]

theorem against_of_le (row : List R) (g : Nat → R) {n : Nat} (long : row.length ≤ n) :
    against row g = ∑ col ∈ range n, row.getD col 0 * g col := by
  refine sum_subset (range_subset_range.mpr long) fun col _ outside => ?_
  rw [List.getD_eq_default _ _ (by simpa using outside), zero_mul]

/-- Coefficients applied to the entries of an array are an inner product. -/
theorem against_getD (row l : List R) : against row (fun col => l.getD col 0) = dot row l := by
  induction row generalizing l with
  | nil => simp [against]
  | cons a row ih => match l with
    | [] => simp [against]
    | b :: l =>
      rw [dot_cons, ← ih l, against, List.length_cons, sum_range_succ', add_comm]
      rfl

theorem rowsAgainst_append (rows more : List (List R)) (g : Nat → Nat → R) :
    rowsAgainst (rows ++ more) g =
      rowsAgainst rows g + rowsAgainst more fun i => g (rows.length + i) := by
  unfold rowsAgainst
  rw [List.length_append, sum_range_add]
  congr 1
  · refine sum_congr rfl fun i member => ?_
    rw [List.getD_append _ _ _ _ (mem_range.mp member)]
  · refine sum_congr rfl fun i _ => ?_
    rw [List.getD_append_right _ _ _ _ (Nat.le_add_right ..), Nat.add_sub_cancel_left]

theorem rowsAgainst_map_range (n : Nat) (row : Nat → List R) (g : Nat → Nat → R) :
    rowsAgainst ((List.range n).map row) g = ∑ i ∈ range n, against (row i) (g i) := by
  unfold rowsAgainst
  rw [List.length_map, List.length_range]
  refine sum_congr rfl fun i member => ?_
  have bound : i < ((List.range n).map row).length := by simpa using member
  rw [List.getD_eq_getElem _ _ bound, List.getElem_map, List.getElem_range]

theorem rowsAgainst_triples (n : Nat) (x y z : Nat → List R) (g : Nat → Nat → R) :
    rowsAgainst ((List.range n).flatMap fun i => [x i, y i, z i]) g =
      ∑ i ∈ range n, (against (x i) (g (3 * i)) + against (y i) (g (3 * i + 1)) +
        against (z i) (g (3 * i + 2))) := by
  have size : ∀ n, ((List.range n).flatMap fun i => [x i, y i, z i]).length = 3 * n := by
    intro n
    rw [List.length_flatMap]
    simp [mul_comm]
  induction n with
  | zero => simp [rowsAgainst]
  | succ n ih =>
    rw [List.range_succ, List.flatMap_append, rowsAgainst_append, ih, sum_range_succ, size]
    congr 1
    simp [rowsAgainst, sum_range_succ, add_assoc]

/-! ### Blocks -/

theorem sum_rows (f : Nat → R) (n width : Nat) :
    ∑ i ∈ range n, ∑ j ∈ range width, f (i * width + j) = ∑ p ∈ range (n * width), f p := by
  induction n with
  | zero => simp
  | succ n ih => rw [sum_range_succ, ih, Nat.succ_mul, sum_range_add]

theorem getD_chunk (l : List R) (i : Nat) {j : Nat} (inside : j < width) :
    (chunk width l i).getD j 0 = l.getD (i * width + j) 0 := by
  rw [chunk, List.getD_eq_getElem?_getD, List.getElem?_take_of_lt inside, List.getElem?_drop,
    ← List.getD_eq_getElem?_getD]

/-- **The blocks applied row by row.** -/
theorem sum_chunks (positive : 0 < width) (l : List R) (g : Nat → Nat → R) :
    ∑ i ∈ range (divCeil l.length width), against (chunk width l i) (g i) =
      ∑ p ∈ range l.length, l.getD p 0 * g (p / width) (p % width) := by
  have row : ∀ i, against (chunk width l i) (g i) = ∑ j ∈ range width,
      l.getD (i * width + j) 0 * g ((i * width + j) / width) ((i * width + j) % width) := by
    intro i
    rw [against_of_le _ _ (length_chunk_le width l i)]
    refine sum_congr rfl fun j member => ?_
    have inside : j < width := mem_range.mp member
    have place : (i * width + j) / width = i ∧ (i * width + j) % width = j := by
      rw [mul_comm, Nat.mul_add_div positive, Nat.mul_add_mod, Nat.div_eq_of_lt inside,
        Nat.mod_eq_of_lt inside]
      exact ⟨rfl, rfl⟩
    rw [getD_chunk l i inside, place.1, place.2]
  simp only [row]
  rw [sum_rows fun p => l.getD p 0 * g (p / width) (p % width)]
  refine (sum_subset (range_subset_range.mpr (le_divCeil_mul l.length positive))
    fun p _ outside => ?_).symm
  rw [List.getD_eq_default _ _ (by simpa using outside), zero_mul]

theorem chunk_map {β : Type} (f : α → β) (width : Nat) (l : List α) (i : Nat) :
    chunk width (l.map f) i = (chunk width l i).map f := by
  rw [chunk, chunk, List.map_take, List.map_drop]

/-- A block behind some reserved entries of a row. -/
def placeBlock (reserved total : Nat) (block : List R) : List R :=
  List.replicate reserved 0 ++ (block ++ List.replicate (total - reserved - block.length) 0)

theorem length_placeBlock {reserved total : Nat} {block : List R}
    (fits : reserved + block.length ≤ total) : (placeBlock reserved total block).length = total := by
  simp only [placeBlock, List.length_append, List.length_replicate]
  omega

theorem against_placeBlock (reserved total : Nat) (block : List R) (g : Nat → R) :
    against (placeBlock reserved total block) g = against block fun j => g (reserved + j) := by
  rw [placeBlock, against_append, against_zeros, zero_add, against_append, against_zeros, add_zero,
    List.length_replicate]

/-! ### Packed rows -/

section Packed

variable {ε α : Type}

/-- The full blocks of an array. -/
def chunksExact (width : Nat) (l : List α) : List (List α) :=
  (List.range (l.length / width)).map (chunk width l)

variable {rows : List (List α)}

section

variable (each : ∀ row ∈ rows, row.length = width)
include each

theorem length_flatten_of_eq :
    rows.flatten.length = rows.length * width := by
  rw [List.length_flatten, List.map_congr_left each]
  simp

theorem drop_flatten (i : Nat) :
    rows.flatten.drop (i * width) = (rows.drop i).flatten := by
  induction rows generalizing i with
  | nil => simp
  | cons row rows ih =>
    obtain ⟨size, rest⟩ := List.forall_mem_cons.mp each
    match i with
    | 0 => simp
    | i + 1 =>
      have split : (i + 1) * width = row.length + i * width := by
        rw [size, Nat.succ_mul, Nat.add_comm]
      rw [List.flatten_cons, split, List.drop_length_add_append, ih rest, List.drop_succ_cons]

theorem chunk_flatten {i : Nat} (inside : i < rows.length) :
    chunk width rows.flatten i = rows[i] := by
  have size := each rows[i] (List.getElem_mem inside)
  rw [chunk, drop_flatten each, List.drop_eq_getElem_cons inside, List.flatten_cons, ← size,
    List.take_left]

end

/-- **Packed rows, cut into rows again.** -/
theorem chunksExact_flatten (positive : 0 < width) (each : ∀ row ∈ rows, row.length = width) :
    chunksExact width rows.flatten = rows := by
  have count : rows.flatten.length / width = rows.length := by
    rw [length_flatten_of_eq each, Nat.mul_div_cancel _ positive]
  refine List.ext_getElem (by rw [chunksExact, List.length_map, List.length_range, count]) ?_
  intro i _ inside
  simp only [chunksExact, List.getElem_map, List.getElem_range, chunk_flatten each inside]

theorem flatten_chunk (l : List α) (count : Nat) :
    ((List.range count).map (chunk width l)).flatten = l.take (count * width) := by
  induction count with
  | zero => simp
  | succ count ih =>
    rw [List.range_succ, List.map_append, List.flatten_append, ih, List.map_singleton,
      List.flatten_singleton, chunk, Nat.succ_mul, List.take_add]

section

variable {l : List α} {β : Type} {f : α → List β} (each : ∀ a ∈ l, (f a).length = width)
include each

theorem length_flatMap_of_length : (l.flatMap f).length = width * l.length := by
  rw [List.length_flatMap, List.map_congr_left each]
  simp [Nat.mul_comm]

theorem getD_flatMap_of_length {i part : Nat} (inside : i < l.length) (small : part < width) (d : β) :
    (l.flatMap f).getD (width * i + part) d = (f l[i]).getD part d := by
  induction l generalizing i with
  | nil => cases inside
  | cons a l ih =>
    obtain ⟨size, rest⟩ := List.forall_mem_cons.mp each
    match i with
    | 0 =>
      rw [List.flatMap_cons, Nat.mul_zero, Nat.zero_add,
        List.getD_append _ _ _ _ (by rwa [size]), List.getElem_cons_zero]
    | i + 1 =>
      have later : width * (i + 1) + part - (f a).length = width * i + part := by
        rw [size, Nat.mul_succ]
        omega
      rw [List.flatMap_cons, List.getD_append_right _ _ _ _ (by rw [size, Nat.mul_succ]; omega),
        later, ih rest (by simpa using inside), List.getElem_cons_succ]

end

theorem slice_flatten (each : ∀ row ∈ rows, row.length = width) {i : Nat} (inside : i < rows.length) :
    (slice rows.flatten (i * width) ((i + 1) * width) : Exec ε _) = .ok rows[i] := by
  have room : (i + 1) * width ≤ rows.flatten.length := by
    rw [length_flatten_of_eq each]
    exact Nat.mul_le_mul_right _ inside
  rw [slice_of_le (Nat.mul_le_mul_right _ (Nat.le_succ i)) room, Nat.succ_mul,
    Nat.add_sub_cancel_left]
  exact congrArg Except.ok (chunk_flatten each inside)

end Packed

end Lib
