/-
**The levels of the real Fourier transform** (`runtime/algebra/src/rfft.rs`).

* `level_returns` — **a level merges the transforms of four neighbours**, and the level backward
  undoes it.
-/

import Longfellow.Algebra.RfftKernels

namespace Longfellow.Rfft

open Lib Gaussian

variable {ε E : Type} [CommRing E]

/-! ### Chunks -/

section Chunks

variable {a b : List E} {count width : ℕ} {work undo : List E → Exec ε (List E)}

omit [CommRing E] in
theorem chunksExact_eq (positive : 0 < width) (size : a.length = count * width) :
    chunksExact width a = (List.range count).map (chunk width a) := by
  rw [chunksExact, size, Nat.mul_div_cancel _ positive]

omit [CommRing E] in
theorem length_chunk (size : a.length = count * width) {Q : ℕ} (inside : Q < count) :
    (chunk width a Q).length = width := by
  have rows := Nat.mul_le_mul_right width inside
  rw [Nat.succ_mul] at rows
  rw [chunk, List.length_take, List.length_drop, size]
  omega

omit [CommRing E] in
theorem onChunks_of_each (positive : 0 < width) (size : a.length = count * width)
    (sizeB : b.length = count * width)
    (each : ∀ Q < count, work (chunk width a Q) = .ok (chunk width b Q)) :
    onChunks width work a = .ok b := by
  have whole : a.drop (a.length / width * width) = [] := by
    rw [size, Nat.mul_div_cancel _ positive, ← size, List.drop_length]
  have done : ((List.range count).map (chunk width a)).mapM work =
      .ok ((List.range count).map (chunk width b)) := by
    refine mapM_of_forall₂ ?_
    rw [List.forall₂_map_left_iff, List.forall₂_map_right_iff, List.forall₂_same]
    exact fun Q member => each Q (List.mem_range.mp member)
  rw [onChunks, chunksExact_eq positive size, done, ok_bind, whole, flatten_chunk, pure_eq_ok,
    List.append_nil, ← sizeB, List.take_length]

omit [CommRing E] in
/-- **The same work on every chunk.** -/
theorem onChunks_returns (work : List E → Exec ε (List E)) (P : List E → List E → Prop)
    (positive : 0 < width)
    (each : ∀ c : List E, c.length = width → ∃ c', work c = .ok c' ∧ c'.length = width ∧ P c c')
    (size : a.length = count * width) :
    ∃ b, onChunks width work a = .ok b ∧ b.length = count * width ∧
      ∀ Q < count, P (chunk width a Q) (chunk width b Q) := by
  choose! made ran sizes holds using each
  let rows := (List.range count).map fun Q => made (chunk width a Q)
  have sizeRows : ∀ row ∈ rows, row.length = width := by
    intro row member
    obtain ⟨Q, inside, rfl⟩ := List.mem_map.mp member
    exact sizes _ (length_chunk size (List.mem_range.mp inside))
  have total : rows.flatten.length = count * width := by
    rw [length_flatten_of_eq sizeRows]
    simp [rows]
  have found : ∀ Q < count, chunk width rows.flatten Q = made (chunk width a Q) := by
    intro Q inside
    rw [chunk_flatten sizeRows (by simpa [rows] using inside)]
    simp [rows]
  refine ⟨rows.flatten, onChunks_of_each positive size total fun Q inside => ?_, total,
    fun Q inside => ?_⟩
  · rw [found Q inside]
    exact ran _ (length_chunk size inside)
  · rw [found Q inside]
    exact holds _ (length_chunk size inside)

theorem onChunks_undo (positive : 0 < width) (size : a.length = count * width)
    (sizeB : b.length = count * width) (q s : E)
    (each : ∀ Q < count, undo ((chunk width b Q).map (s * ·)) =
      .ok ((chunk width a Q).map (q * s * ·))) :
    onChunks width undo (b.map (s * ·)) = .ok (a.map (q * s * ·)) := by
  refine onChunks_of_each positive (by rw [List.length_map, sizeB]) (by rw [List.length_map, size])
    fun Q inside => ?_
  rw [chunk_map, chunk_map]
  exact each Q inside

end Chunks

/-! ### A level -/

variable {a b : List E} {m : ℕ}

omit [CommRing E] in
theorem eq_of_getD [Zero E] (size : a.length = b.length)
    (same : ∀ k < a.length, a.getD k 0 = b.getD k 0) : a = b := by
  refine List.ext_getElem size fun k inside inside' => ?_
  have cell := same k inside
  rwa [List.getD_eq_getElem _ _ inside, List.getD_eq_getElem _ _ inside'] at cell

theorem getD_map_mul (s : E) (a : List E) (k : ℕ) : (a.map (s * ·)).getD k 0 = s * a.getD k 0 := by
  rw [List.getD_eq_getElem?_getD, List.getElem?_map, List.getD_eq_getElem?_getD]
  cases a[k]? with
  | none => exact (mul_zero s).symm
  | some x => rfl

theorem eq_of_columns (sizeA : a.length = 4 * m) (sizeB : b.length = 4 * m)
    (same : ∀ j < m, column a m j = column b m j) : a = b := by
  refine eq_of_getD (sizeA.trans sizeB.symm) fun k inside => ?_
  have positive : 0 < m := by omega
  have part : k / m < 4 := by
    rw [Nat.div_lt_iff_lt_mul positive]
    omega
  have cell := congrFun (same (k % m) (Nat.mod_lt _ positive)) ⟨k / m, part⟩
  have index : k % m + k / m * m = k := by
    rw [Nat.mul_comm]
    exact Nat.mod_add_div k m
  rwa [column, column, index] at cell

theorem column_map (s : E) (a : List E) (m j : ℕ) :
    column (a.map (s * ·)) m j = fun d => s * column a m j d := by
  funext d
  rw [column, column, getD_map_mul]

variable {roots : List (Fp2Element E)} {w : Fp2Element E} {ws h : ℕ}

/-- **A level on a chunk**, forward and backward. -/
theorem columns_undo [NoZeroDivisors E] (some : 0 < h)
    (table : ∀ k < 4 * h, getAt roots (k * ws) = (.ok (w ^ k) : Exec ε _)) (circle : w * star w = 1)
    (quarter : w ^ (2 * h) = Gaussian.i) {c : List E} (size : c.length = 4 * (2 * h)) :
    ∃ c', columns forward roots ws (2 * h) c = (.ok c' : Exec ε _) ∧ c'.length = 4 * (2 * h) ∧
      (∀ j < 2 * h, column c' (2 * h) j = merged forward w (2 * h) (column c (2 * h)) j) ∧
      ∀ s : E, columns backward roots ws (2 * h) (c'.map (s * ·)) =
        (.ok (c.map (4 * s * ·)) : Exec ε _) := by
  obtain ⟨c', ran, size', made⟩ := columns_returns forward some table size
  refine ⟨c', ran, size', made, fun s => ?_⟩
  obtain ⟨c'', ran', size'', undone⟩ := columns_returns backward some table
    (a := c'.map (s * ·)) (by rw [List.length_map, size'])
  have square : w ^ h * w ^ h = Gaussian.i := by rw [← pow_add, ← Nat.two_mul, quarter]
  have diagonal := diagonal_of_square (circle_pow circle h) square
  have scaled : ∀ j < 2 * h, column (c'.map (s * ·)) (2 * h) j =
      fun d => s * merged forward w (2 * h) (column c (2 * h)) j d := by
    intro j inside
    rw [column_map, made j inside]
  have same : c'' = c.map (4 * s * ·) :=
    eq_of_columns size'' (by rw [List.length_map, size]) fun j inside => by
      rw [undone j inside, merged_congr backward w scaled inside,
        merged_backward circle diagonal s _ inside, column_map]
  rw [ran', same]

/-- The columns of the chunk that is made of four neighbours. -/
def neighbours (a : List E) (m Q j : ℕ) (d : Fin 4) : E := a.getD ((4 * Q + d) * m + j) 0

theorem column_chunk (a : List E) (Q : ℕ) {j : ℕ} (inside : j < m) :
    column (chunk (4 * m) a Q) m j = neighbours a m Q j := by
  funext d
  have part : (d : ℕ) * m ≤ 3 * m := Nat.mul_le_mul_right m (by omega)
  have index : Q * (4 * m) + (j + d * m) = (4 * Q + d) * m + j := by ring
  rw [column, getD_chunk a Q (by omega), index, neighbours]

/-- **A level on an array**, forward and backward. -/
theorem level_returns [NoZeroDivisors E] {n count : ℕ} (some : 0 < h)
    (table : ∀ k < 4 * h, getAt roots (k * (n / (4 * (2 * h)))) = (.ok (w ^ k) : Exec ε _))
    (circle : w * star w = 1) (quarter : w ^ (2 * h) = Gaussian.i)
    (size : a.length = count * (4 * (2 * h))) :
    ∃ b, level forward roots n (2 * h) a = (.ok b : Exec ε _) ∧ b.length = count * (4 * (2 * h)) ∧
      (∀ Q < count, ∀ j < 2 * h, neighbours b (2 * h) Q j =
        merged forward w (2 * h) (neighbours a (2 * h) Q) j) ∧
      ∀ s : E, level backward roots n (2 * h) (b.map (s * ·)) =
        (.ok (a.map (4 * s * ·)) : Exec ε _) := by
  obtain ⟨b, ran, sizeB, done⟩ := onChunks_returns _ _ (by omega)
    (fun c sizeC => columns_undo some table circle quarter sizeC) size
  refine ⟨b, ran, sizeB, fun Q inside j small => ?_, fun s => ?_⟩
  · obtain ⟨made, -⟩ := done Q inside
    rw [← column_chunk b Q small, made j small]
    exact merged_congr forward w (fun j small => column_chunk a Q small) small
  · exact onChunks_undo (by omega) size sizeB 4 s fun Q inside => (done Q inside).2 s

/-! ### All levels -/

/-- The elements of a vector that are transformed in a chunk, when there are `2 ^ p` chunks. -/
def partOf (a : List E) (p Q k : ℕ) : E := a.getD (k * 2 ^ p + reversed p Q) 0

/-- Every chunk of `2 ^ t` elements is the transform of its part of a vector. -/
structure Merges (a : List E) (w : Fp2Element E) (p t : ℕ) (b : List E) : Prop where
  size : b.length = 2 ^ (p + t)
  values : ∀ Q < 2 ^ p, ∀ j < 2 ^ t, b.getD (Q * 2 ^ t + j) 0 =
    halfComplex (2 ^ t) (dft (2 ^ t) (star w ^ 2 ^ p) (partOf a p Q)) j

theorem partOf_four (a : List E) (p Q k : ℕ) (d : Fin 4) :
    partOf a (p + 2) (4 * Q + d) k = partOf a p Q (4 * k + reversed 2 d) := by
  have split : reversed (p + 2) (Q * 2 ^ 2 + d) = reversed 2 d * 2 ^ p + reversed p Q :=
    reversed_add p Q (show (d : ℕ) < 2 ^ 2 by omega)
  have order : 4 * Q + (d : ℕ) = Q * 2 ^ 2 + d := by ring
  have index : k * 2 ^ (p + 2) + (reversed 2 d * 2 ^ p + reversed p Q) =
      (4 * k + reversed 2 d) * 2 ^ p + reversed p Q := by ring
  rw [partOf, order, split, index, partOf]

theorem star_pow_quarter {q : ℕ} (quarter : w ^ q = Gaussian.i) : star w ^ q = -Gaussian.i := by
  rw [← star_pow, quarter]
  ext <;> simp [Gaussian.i]

section Run

variable {p t : ℕ} (circle : w * star w = 1)

include circle in
/-- **A level merges** the transforms of four neighbours. -/
theorem Merges.step [NoZeroDivisors E] (two : (2 : E) ≠ 0)
    (quarter : w ^ 2 ^ (p + (t + 1)) = Gaussian.i)
    (table : ∀ k < 2 ^ (p + (t + 2)), getAt roots k = (.ok (w ^ k) : Exec ε _))
    (merges : Merges a w (p + 2) (t + 1) b) :
    ∃ b', level forward roots (2 ^ (p + (t + 3))) (2 ^ (t + 1)) b = (.ok b' : Exec ε _) ∧
      Merges a w p (t + 3) b' ∧
      ∀ s : E, level backward roots (2 ^ (p + (t + 3))) (2 ^ (t + 1)) (b'.map (s * ·)) =
        (.ok (b.map (4 * s * ·)) : Exec ε _) := by
  have double : 2 ^ (t + 1) = 2 * 2 ^ t := pow_succ' 2 t
  have width : 4 * (2 * 2 ^ t) = 2 ^ (t + 3) := by ring
  have stride : 2 ^ (p + (t + 3)) / (4 * (2 * 2 ^ t)) = 2 ^ p := by
    rw [width, pow_add, Nat.mul_div_cancel _ (Nat.two_pow_pos _)]
  have size : b.length = 2 ^ p * (4 * (2 * 2 ^ t)) := by
    rw [merges.size, width, ← pow_add]
    congr 1
    omega
  have turn : (w ^ 2 ^ p) ^ (2 * 2 ^ t) = Gaussian.i := by
    rw [← pow_mul, ← double, ← pow_add, quarter]
  have turn' : (star w ^ 2 ^ p) ^ 2 ^ (t + 1) = -Gaussian.i := by
    rw [← pow_mul, ← pow_add]
    exact star_pow_quarter quarter
  have circle' : star w ^ 2 ^ p * star (star w ^ 2 ^ p) = 1 :=
    circle_pow (by rw [star_star, mul_comm, circle]) _
  obtain ⟨b', ran, size', made, undone⟩ := level_returns (ε := ε) (n := 2 ^ (p + (t + 3)))
    (w := w ^ 2 ^ p) (Nat.two_pow_pos t) (fun k small => by
      have inside : k * 2 ^ p < 2 ^ (p + (t + 2)) := by
        have bound : 4 * 2 ^ t * 2 ^ p = 2 ^ (p + (t + 2)) := by ring
        rw [← bound]
        exact Nat.mul_lt_mul_of_pos_right small (Nat.two_pow_pos p)
      rw [stride, table _ inside, ← pow_mul, Nat.mul_comm]) (circle_pow circle _) turn size
  rw [← double] at ran made undone
  refine ⟨b', ran, ⟨by rw [size', width, ← pow_add], fun Q inside k small => ?_⟩, undone⟩
  have positive := Nat.two_pow_pos (t + 1)
  have four : 2 ^ (t + 3) = 4 * 2 ^ (t + 1) := by ring
  have part : k / 2 ^ (t + 1) < 4 := by
    rw [Nat.div_lt_iff_lt_mul positive, ← four]
    exact small
  have below := Nat.mod_lt k positive
  have known : ∀ j < 2 ^ (t + 1), ∀ d : Fin 4, neighbours b (2 ^ (t + 1)) Q j d =
      halfComplex (2 ^ (t + 1)) (dft (2 ^ (t + 1)) ((star w ^ 2 ^ p) ^ 4)
        fun k => partOf a p Q (4 * k + reversed 2 d)) j := by
    intro j small d
    have room : 4 * Q + (d : ℕ) < 2 ^ (p + 2) := by
      have bound : 2 ^ (p + 2) = 4 * 2 ^ p := by ring
      omega
    have exponent : 2 ^ p * 4 = 2 ^ (p + 2) := by ring
    rw [neighbours, merges.values _ room j small, ← pow_mul, exponent]
    refine congrArg (halfComplex _ · j) (funext fun i => dft_congr fun k _ => ?_)
    exact partOf_four a p Q k d
  have merged := merged_forward turn' (partOf a p Q) circle' two double (Nat.two_pow_pos t) known
    below ⟨k / 2 ^ (t + 1), part⟩
  have column := congrFun (made Q inside _ below) ⟨k / 2 ^ (t + 1), part⟩
  have conjugate : star (star w ^ 2 ^ p) = w ^ 2 ^ p := by rw [star_pow, star_star]
  have whole : k / 2 ^ (t + 1) * 2 ^ (t + 1) + k % 2 ^ (t + 1) = k := by
    rw [Nat.mul_comm]
    exact Nat.div_add_mod k _
  have index : Q * 2 ^ (t + 3) + k =
      (4 * Q + k / 2 ^ (t + 1)) * 2 ^ (t + 1) + k % 2 ^ (t + 1) := by
    rw [Nat.add_mul, Nat.add_assoc, whole, four]
    ring
  rw [conjugate] at merged
  rw [index]
  refine column.trans (merged.trans ?_)
  rw [whole, four]

theorem forwardLevels_done (fuel n : ℕ) (c : List E) :
    forwardLevels roots n fuel n c = (.ok c : Exec ε _) := by
  cases fuel <;> rw [forwardLevels, if_neg (lt_irrefl _), pure_eq_ok]

include circle in
/-- **All levels**, forward and backward. -/
theorem Merges.run [NoZeroDivisors E] (two : (2 : E) ≠ 0) {n : ℕ} (quarter : w ^ 2 ^ n = Gaussian.i)
    (table : ∀ k < 2 ^ (n + 1), getAt roots k = (.ok (w ^ k) : Exec ε _)) {r : ℕ}
    (levels : n + 2 = 2 * r + (t + 1)) (merges : Merges a w (2 * r) (t + 1) b) :
    ∃ c, (∀ fuel, forwardLevels roots (2 ^ (n + 2)) (fuel + r) (2 ^ (t + 1)) b =
        (.ok c : Exec ε _)) ∧
      Merges a w 0 (n + 2) c ∧
      ∀ (s : E) fuel, backwardLevels roots (2 ^ (n + 2)) (fuel + r) (2 ^ (n + 2)) (c.map (s * ·)) =
        (backwardLevels roots (2 ^ (n + 2)) fuel (2 ^ (t + 1)) (b.map (4 ^ r * s * ·)) :
          Exec ε _) := by
  induction r generalizing t b with
  | zero =>
    have same : n + 2 = t + 1 := by omega
    refine ⟨b, fun fuel => ?_, same ▸ merges, fun s fuel => ?_⟩
    · rw [same, forwardLevels_done]
    · simp only [same, Nat.add_zero, pow_zero, one_mul]
  | succ r ih =>
    have order : n + 2 = 2 * r + (t + 3) := by omega
    have quarter' : w ^ 2 ^ (2 * r + (t + 1)) = Gaussian.i := by
      rw [← quarter]
      congr 2
      omega
    have table' : ∀ k < 2 ^ (2 * r + (t + 2)), getAt roots k = (.ok (w ^ k) : Exec ε _) := by
      intro k small
      refine table k (small.trans_eq ?_)
      congr 1
      omega
    obtain ⟨b', ran, merges', undone⟩ := Merges.step circle two quarter' table' merges
    rw [← order] at ran undone
    obtain ⟨c, rest, merged, back⟩ := ih (t := t + 2) (by omega) merges'
    have four : 2 ^ (t + 1) * 4 = 2 ^ (t + 2 + 1) := by ring
    have quotient : 2 ^ (t + 2 + 1) / 4 = 2 ^ (t + 1) := by rw [← four, Nat.mul_div_cancel _ (by decide)]
    have below : 2 ^ (t + 1) < 2 ^ (n + 2) := Nat.pow_lt_pow_right (by decide) (by omega)
    have large : 4 < 2 ^ (t + 2 + 1) := by
      have positive := Nat.two_pow_pos t
      rw [← four, pow_succ]
      omega
    refine ⟨c, fun fuel => ?_, merged, fun s fuel => ?_⟩
    · rw [← Nat.add_assoc, forwardLevels, if_pos below, ran, ok_bind, four, rest]
    · have exponent : fuel + (r + 1) = fuel + 1 + r := by omega
      rw [exponent, back, backwardLevels, if_pos large, quotient, undone, ok_bind]
      simp only [pow_succ', mul_assoc]

end Run

end Longfellow.Rfft
